import Warrant.Assembly.Basic

/-! # Discharging the axioms of a verification condition

After the verification condition is applied in the final script, its axioms remain to be shown, in
order.  The group of lines for an axiom unfolds its definition and then takes the step for its
kind. -/

namespace Warrant

/-- A carriage return at the end of `line` is not part of it. -/
def dropReturn (line : List Char) : List Char :=
  if line.getLast? = some '\r' then line.dropLast else line

/-- The lines of a text, each ended by a line break, where `line` is what was read of the first one.
    What follows the last break is a line too, if there is anything. -/
def linesOf : (line : List Char) → List Char → List (List Char)
  | line, [] => if line.isEmpty then [] else [line]
  | line, c :: rest =>
    if c = '\n' then dropReturn line :: linesOf [] rest else linesOf (line ++ [c]) rest

/-- The lines of the text `s` as strings, by `linesOf`. -/
def textLines (s : String) : List String := (linesOf [] s.toList).map String.ofList

namespace Assembly

variable (a : Assembly)

/-- The step that shows the axiom `ax`, by its `kind`. -/
def axiomStep (ax : VcAxiom) : Except Error String :=
  match ax.kind with
  | .source => .error (.unsupportedAxiom ax.name ax.kind.describe)
  | .functionOutput name => do
    let f ← a.function name
    let member ← memberLemma a.catalog.chain f.key
    return "apply (fun_output_axiom NonEmptyTypes: NonEmptyTypes)\n" ++
      "using closed_inv1 finterp_extract_2[OF FInterp " ++ member ++ " " ++ f.interpretationFact ++
      "] apply simp"
  | .variable name => do
    let v ← a.vcVariable name
    return "apply (simp add: HOL.conjunct2[OF " ++ a.stateFact v ++ "])"
  | .ctorBasic ty _ =>
    if ty.isPrimitive then .ok ("apply (rule " ++ ctorLemmaName ty.render ++ ")")
    else .error (.unsupportedCtorType ty.render)
  | .ctorDecl ctor _ => .ok ("apply (rule " ++ ctorLemmaName ctor.name ++ ")")
  | .leftInverse ctor index =>
    .ok ("apply (rule " ++ Semantics.leftInverseName index ctor.arity ++ ")")
  | .cast ty kind =>
    if ty.isPrimitive then
      let rule := match kind with
        | .boxedOfUnboxed => "inverse_1"
        | .unboxedOfBoxed => "inverse_2"
        | .typeOfBoxed => "type"
      .ok ("apply (rule " ++ ty.render ++ "_" ++ rule ++ ")")
    else .error (.unsupportedCast ty.render)

/-- The lines for the axiom `ax`: its definition is unfolded, then comes its `axiomStep`. -/
def axiomGroup (ax : VcAxiom) : Except Error Script := do
  let step ← a.axiomStep ax
  return ("unfolding " ++ ax.name ++ "_def") :: textLines step

/-- The `axiomGroup` of all axioms of the condition, in order. -/
def axiomSteps : Except Error Script := do
  let groups ← a.vc.axioms.mapM a.axiomGroup
  return groups.flatten

end Assembly

end Warrant
