import Warrant.Assembly.Discharge

/-! # The final lemma

If the verification condition holds then the procedure's control-flow graph does not reach a
failure.  The lemma `end_to_end` says so, and its script derives from its assumptions what the lemma
about passification needs: how functions and variables are interpreted, that the axioms of the
program hold, and that those of the verification condition do. -/

namespace Warrant

open Semantics
open Vocabulary (someOf the emptyList)

/-- The name of the `finalLemma`. -/
def endToEndName : String := "end_to_end"

namespace Assembly

variable (a : Assembly)

/-- `n_s`, the initial state. -/
def initState : Term := .ident "n_s"

/-- `s'`, the final state. -/
def finalState : Term := .ident "s'"

/-- `m'`, the node in the final configuration. -/
def finalNode : Term := .ident "m'"

/-- What the `finalLemma` concludes: the `finalState` is not a failure. -/
def conclusion : Term := .neq finalState failure

/-- The variable context without globals, over `paramsAndLocals` of the scope. -/
def localContext : Term := .tuple [emptyList, a.catalog.scope.paramsAndLocals]

/-- The assumptions of the `finalLemma`. -/
def assumptions : Except Error (List (String × Term)) := do
  let scope := a.catalog.scope
  let label ← match a.graph.label? a.graph.entry with
    | some n => pure n
    | none => throw (.flow (.unknownBlock a.graph.entry))
  return [
    ("VC", a.vcAssumption),
    ("Closed", closednessAssumption ctx.valueMap),
    ("NonEmptyTypes", nonEmptyTypesAssumption ctx.valueMap),
    ("FInterp", funInterpWf ctx.valueMap (.ident scope.functions) ctx.functions),
    ("Axioms",
      axiomAssm ctx (.tuple [emptyList, emptyList]) (.ident scope.axioms)
        (.typed initState (.data "nstate" [.var "a"]))),
    ("ParamsLocal", stateTypWf ctx scope.paramsAndLocals (localState initState)),
    ("Red",
      redCfgMulti ctx a.localContext scope.cfg
        (nodeConfig (.nat label) (normal initState)) (.tuple [finalNode, finalState]))]

/-- The lines about the interpretation of the function `f`. -/
def functionLines (f : Function) : Except Error Script := do
  let member ← memberLemma a.catalog.chain f.key
  let short := "?" ++ f.name
  let interpreted : Term := .app (.ident "opaque_comp") [.ident "the", ctx.functions, .str f.name]
  let fact : Term := .eq (.app ctx.functions [.str f.name]) (someOf (.ident short))
  return [
    "let " ++ short ++ " = " ++ interpreted.quoted,
    "have " ++ f.interpretationFact ++ ": " ++ fact.quoted,
    "apply (simp only: opaque_comp_def)",
    "by (rule finterp_member[OF FInterp " ++ member ++ "])"]

/-- The lines about the value of `v`, a parameter or local, in the `initState`. -/
def variableLines (v : Variable) : Except Error Script := do
  let member ← memberLemma a.catalog.chain v.key
  let decl ← variableDecl v
  let value := lookupVar (.ident "?\\<Lambda>") initState (.nat v.id.toNat)
  let fact : Term :=
    .and (.eq value (normalizedLookup value v.ty)) (.eq (typeOfVal ctx.valueMap (the value)) decl)
  return [
    "from ParamsLocal have " ++ a.stateFact v ++ ": " ++ fact.quoted,
    "apply (simp only: state_typ_wf_def)",
    "apply (erule allE, erule allE, erule impE, rule " ++ member ++ ")",
    "apply (subst lookup_var_local[OF " ++ member ++ "])+",
    "by (fastforce dest: tint_intv tbool_boolv)"]

/-- The lines about `ax`, an axiom of the program. -/
def axiomLines (ax : SourceAxiom) : Except Error Script := do
  let member ← memberLemma a.catalog.chain ax.key
  let holds := redExpr ctx ax.term initState (boolVal true)
  return [
    "have ea_" ++ toString ax.index ++ ": " ++ holds.quoted,
    "by (rule axioms_sat_mem[OF " ++ member ++ " Axioms])"]

/-- The lines that apply the lemma `f.correspondenceName` about the function `f` and its
    counterpart. -/
def correspondenceLines (f : Function) : Except Error Script := do
  let member ← memberLemma a.catalog.chain f.key
  let antiquoted (names : List String) : String :=
    " ".intercalate (names.map fun name => "@\x7bthm " ++ name ++ "\x7d")
  return [
    "apply (simp add: " ++ f.interpretationFact ++ ")",
    "apply (rule+)",
    "apply (tactic \\<open>vc_fun_corres_tac @\x7bcontext\x7d " ++
      antiquoted [f.correspondenceName, "FInterp", member, f.interpretationFact] ++ " 1\\<close>)"]

/-- The line that relates `v`, a parameter or local, to its quantified identifier. -/
def stateLine (v : Variable) : String :=
  let fact := a.stateFact v
  if v.ty.isPrimitive then "apply (rule HOL.conjunct1[OF " ++ fact ++ "])"
  else "apply (rule HOL.conjunct1[OF " ++ fact ++ "], rule HOL.conjunct2[OF " ++ fact ++ "])"

/-- The script of the `finalLemma`. -/
def script : Except Error Script := do
  let functions ← a.program.functions.mapM a.functionLines
  let locals ← a.program.paramsAndLocals.mapM a.variableLines
  let axioms ← a.program.axioms.mapM a.axiomLines
  let correspondences ← a.program.functions.mapM a.correspondenceLines
  let discharge ← a.axiomSteps
  return ["proof -", "let ?\\<Lambda> = " ++ a.localContext.quoted] ++
    functions.flatten ++ locals.flatten ++ axioms.flatten ++
    ["show " ++ conclusion.quoted,
     "apply (rule " ++ a.locale ++ ".method_verifies[OF _ Red])",
     "apply (simp only: " ++ a.locale ++ "_def)",
     "apply (intro conjI)"] ++
    correspondences.flatten ++ a.program.paramsAndLocals.map a.stateLine ++
    ["apply (simp add: Closed)", "apply (rule VC)"] ++
    discharge ++ ["done", "qed"]

/-- The final lemma, with its `assumptions` and its `script`. -/
def finalLemma : Except Error Lemma := do
  let assumptions ← a.assumptions
  let script ← a.script
  return { name := endToEndName, assumptions, statement := conclusion, script }

/-- The declarations of the proof, given those of the `phase` about functions. -/
def endToEnd (phase : FunctionPhase) : Except Error (List Decl) := do
  let ctors ← ctorDecls a.vc.axioms
  let final ← a.finalLemma
  return phase.decls ++ a.vc.axioms.map VcAxiom.definition ++ ctors ++
    [.declare "One_nat_def[simp del]", .statement final]

/-- The declarations of the whole proof: `functionPhase`, then `endToEnd`. -/
def proof : Except Error (List Decl) := do
  let phase ← functionPhase a.program.functions
  a.endToEnd phase

end Assembly

end Warrant
