import Warrant.Logic.Term

/-! # The printed form of terms

Discharge scripts quote terms as text, so every term has one printed form.  Brackets go around the
operands of applications and operators that are not atomic (`Term.isAtomic`), and nowhere else: the
parts of a case split, the body of a quantifier and the items of a list are printed as they are. -/

namespace Warrant

/-- The text of an `Op` between its operands. -/
def Op.symbol : Op → String
  | .eq => "="
  | .neq => "\\<noteq>"
  | .lt => "<"
  | .le => "\\<le>"
  | .gt => ">"
  | .ge => "\\<ge>"
  | .and => "\\<and>"
  | .or => "\\<or>"
  | .implies => "\\<longrightarrow>"
  | .metaImp => "\\<Longrightarrow>"
  | .add => "+"
  | .sub => "-"
  | .elem => "\\<in>"
  | .inter => "\\<inter>"
  | .append => "@"
  | .compose => "\\<circ>"

/-- The text of a `Quant` in front of the identifiers that it binds. -/
def Quant.symbol : Quant → String
  | .all => "\\<forall>"
  | .ex => "\\<exists>"
  | .metaAll => "\\<And>"
  | .lambda => "\\<lambda>"

/-- The text of a `Literal`.  Integers carry their type, so that they differ from natural
    numbers. -/
def Literal.render : Literal → String
  | .bool true => "True"
  | .bool false => "False"
  | .nat n => toString n
  | .int (.ofNat n) => "(" ++ toString n ++ "::int)"
  | .int (.negSucc n) => "(-" ++ toString (n + 1) ++ "::int)"
  | .str s => "''" ++ s ++ "''"

namespace Term

/-- The texts of the identifiers `bound` by a quantifier, each with its type where there is one. -/
def renderBinders (bound : List Ident) : Option (List Typ) → List String
  | none => bound
  | some types => bound.zipWith (fun x t => "(" ++ x ++ "::" ++ t.render ++ ")") types

mutual
/-- The text of a term. -/
def render : Term → String
  | .app head args => " ".intercalate (asOperand head.isAtomic head.render :: operands args)
  | .list items => "[" ++ ", ".intercalate (renders items) ++ "]"
  | .set items => "\x7b" ++ ", ".intercalate (renders items) ++ "\x7d"
  | .record fields => "\\<lparr>" ++ ", ".intercalate (renderFields fields) ++ "\\<rparr>"
  | .tuple items => "(" ++ ", ".intercalate (renders items) ++ ")"
  | .ident name => name
  | .nary op args => (" " ++ op.symbol ++ " ").intercalate (operands args)
  | .quant kind bound types body =>
    kind.symbol ++ " ".intercalate (renderBinders bound types) ++ ". " ++ body.render
  | .caseOf scrutinee arms =>
    "case " ++ scrutinee.render ++ " of " ++ " | ".intercalate (renderArms arms)
  | .typed term typ => "(" ++ term.render ++ "::" ++ typ.render ++ ")"
  | .lit value => value.render
/-- `render` of each of several terms. -/
def renders : List Term → List String
  | [] => []
  | t :: ts => t.render :: renders ts
/-- `render` of each of several terms, as an operand. -/
def operands : List Term → List String
  | [] => []
  | t :: ts => asOperand t.isAtomic t.render :: operands ts
/-- The texts of the fields of a `Term.record`. -/
def renderFields : List (Ident × Term) → List String
  | [] => []
  | (label, t) :: fields => (label ++ " = " ++ t.render) :: renderFields fields
/-- The texts of the arms of a `Term.caseOf`. -/
def renderArms : List (Term × Term) → List String
  | [] => []
  | (pattern, t) :: arms => (pattern.render ++ " \\<Rightarrow> " ++ t.render) :: renderArms arms
end

/-- `renders` goes through the terms one by one. -/
theorem renders_eq_map (ts : List Term) : renders ts = ts.map render := by
  induction ts with
  | nil => rfl
  | cons t ts ih => simp [renders, ih]

/-- `operands` goes through the terms one by one. -/
theorem operands_eq_map (ts : List Term) :
    operands ts = ts.map fun t => asOperand t.isAtomic t.render := by
  induction ts with
  | nil => rfl
  | cons t ts ih => simp [operands, ih]

/-- `render` in double quotes, as declarations quote a term. -/
def quoted (t : Term) : String := "\"" ++ t.render ++ "\""

end Term

end Warrant
