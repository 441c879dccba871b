import Warrant.Logic.Printer

/-! # Declarations of a theory

Function definitions, plain definitions, lemmas with their scripts, and attribute declarations, with
their printed form. -/

namespace Warrant

/-- The `script` of a `Lemma`: one line per method or step. -/
abbrev Script := List String

/-- The `Script` that is a single `method`. -/
def Script.by (method : String) : Script := ["by " ++ method]

/-- A defining equation: the name applied to `lhs` equals `rhs`. -/
structure Equation where
  lhs : List Term
  rhs : Term
  deriving DecidableEq, Repr

/-- A lemma with labelled `assumptions` and the `script` that discharges it. -/
structure Lemma where
  name : String
  assumptions : List (String × Term) := []
  statement : Term
  script : Script
  deriving DecidableEq, Repr

/-- A declaration of a `Theory`. -/
inductive Decl where
  | function (name : String) (typ : Option Typ) (equations : List Equation)
  | definition (name : String) (equation : Equation)
  | statement (l : Lemma)
  /-- An attribute declaration such as `One_nat_def[simp del]`. -/
  | declare (attr : String)
  deriving DecidableEq, Repr

/-- The equation for `name` as one term. -/
def Equation.toTerm (name : String) (e : Equation) : Term :=
  let left : Term := if e.lhs.isEmpty then .ident name else .call name e.lhs
  .eq left e.rhs

/-- The text of an equation for `name`, its `toTerm` in quotes. -/
def Equation.render (name : String) (e : Equation) : String := (e.toTerm name).quoted

/-- The text of a lemma.  Without `assumptions` the `statement` stands alone. -/
def Lemma.render (l : Lemma) : String :=
  let assumptions := l.assumptions.map fun (label, t) => label ++ ": " ++ t.quoted
  let statement :=
    if l.assumptions.isEmpty then l.statement.quoted
    else "assumes " ++ " and\n  ".intercalate assumptions ++ "\nshows " ++ l.statement.quoted
  "lemma " ++ l.name ++ ":\n" ++ statement ++ "\n" ++ "\n".intercalate l.script

namespace Decl

/-- The name that a declaration introduces; `declare` introduces none. -/
def name? : Decl → Option String
  | .function name .. => some name
  | .definition name _ => some name
  | .statement l => some l.name
  | .declare _ => none

/-- The text of a declaration, as `Theory.render` prints it. -/
def render : Decl → String
  | .function name typ equations =>
    let signature := match typ with
      | some t => " :: \"" ++ t.render ++ "\""
      | none => ""
    "fun " ++ name ++ signature ++ " where\n  " ++
      "\n| ".intercalate (equations.map (Equation.render name))
  | .definition name equation => "definition " ++ name ++ " where\n  " ++ equation.render name
  | .statement l => l.render
  | .declare attr => "declare " ++ attr

end Decl

end Warrant
