import Warrant.Condition.Basic
import Warrant.Semantics.Vocabulary

/-! # Numbers of type constructors

Verification conditions number the type constructors.  The axioms that say so need a function `ctor`
with these numbers, a table for the declared constructors, and a lemma for each constructor. -/

namespace Warrant

open Vocabulary (the mapOf)

/-- The name of the table of declared constructors in `ctorDecls`. -/
def ctorTableName : String := "ctor_table"

/-- The name of the function in `ctorDecls` that numbers closed types. -/
def ctorName : String := "ctor"

/-- The name of the lemma about the constructor `name`. -/
def ctorLemmaName (name : String) : String := "ctor_" ++ name

/-- The closed type `ty` has the number `value`. -/
def ctorStatement (ty : Term) (value : Int) : Term := .eq (.call ctorName [ty]) (.int value)

/-- The lemma about the declared constructor `ctor`, whatever its arguments. -/
def ctorDeclLemma (ctor : TypeCtor) (value : Int) : Lemma :=
  let args := (List.range ctor.arity).map fun i => "t" ++ toString (i + 1)
  let body := ctorStatement (.call "TConC" [.str ctor.name, .list (args.map .ident)]) value
  { name := ctorLemmaName ctor.name
    statement := if args.isEmpty then body else .all args body
    script := Script.by ("(simp add: " ++ ctorTableName ++ "_def)") }

/-- What one axiom contributes to `ctorDecls`: an equation of the function, an entry of the table, a
    lemma. -/
structure CtorParts where
  equations : List Equation := []
  entries : List Term := []
  lemmas : List Lemma := []

/-- The parts of `p`, followed by those of `q`. -/
def CtorParts.append (p q : CtorParts) : CtorParts :=
  ⟨p.equations ++ q.equations, p.entries ++ q.entries, p.lemmas ++ q.lemmas⟩

/-- What an axiom of this kind contributes to `ctorDecls`. -/
def VcAxiomKind.ctorParts : VcAxiomKind → Except Error CtorParts
  | .ctorBasic ty value =>
    match Semantics.primClosedType? ty with
    | none => .error (.unsupportedCtorType ty.render)
    | some t => .ok
      { equations := [{ lhs := [t], rhs := .int value }]
        lemmas :=
          [{ name := ctorLemmaName ty.render, statement := ctorStatement t value,
             script := Script.by "simp" }] }
  | .ctorDecl ctor value => .ok
      { entries := [.tuple [.str ctor.name, .int value]], lemmas := [ctorDeclLemma ctor value] }
  | _ => .ok {}

/-- What all axioms contribute to `ctorDecls`, in order. -/
def ctorParts : List VcAxiom → Except Error CtorParts
  | [] => .ok {}
  | a :: axioms => do
    let first ← a.kind.ctorParts
    let others ← ctorParts axioms
    return first.append others

/-- The table, the function and the lemmas about constructors, in this order. -/
def ctorDecls (axioms : List VcAxiom) : Except Error (List Decl) := do
  let parts ← ctorParts axioms
  let byTable : Equation :=
    { lhs := [.ident "(TConC s _)"], rhs := the (mapOf (.ident ctorTableName) (.ident "s")) }
  return [.definition ctorTableName { lhs := [], rhs := .list parts.entries },
    .function ctorName (some (.arrow (.data "closed_ty" []) .int))
      (parts.equations ++ [byTable])] ++
    parts.lemmas.map .statement

end Warrant
