import Warrant.Logic.Decl
import Warrant.Names.Supply
import Warrant.Semantics.Recovery

/-! # Functions in verification conditions

In a verification condition a function takes unboxed values, and of its type parameters only those
that the values do not determine.  For each function of the source program there is

* a definition of its counterpart (`vcFunction`), which boxes the arguments, recovers the other type
  parameters from them, calls the function and unboxes the result, and
* a lemma that the function agrees with its counterpart on arguments of the right types
  (`correspondence`). -/

namespace Warrant

open Semantics
open Vocabulary (someOf noneOf)

/-- What names are needed for in the definition (`vcFunction`) and in the lemma (`correspondence`)
    of a function. -/
inductive Slot where
  | function
  | param (index : Nat)
  | typeParam (index : Nat)
  /-- The result of the call. -/
  | result
  /-- A value with which the call agrees. -/
  | witness
  deriving DecidableEq, Repr

/-- The fixed identifiers of all lemmas, by their defaults in `Context`. -/
def ctx : Context := {}

/-- Join the `parts` that are not empty with single blanks. -/
def words (parts : List String) : String := " ".intercalate (parts.filter (!·.isEmpty))

namespace Function

/-- The name of the counterpart of `f`. -/
def vcName (f : Function) : String := "vc_fun_" ++ f.name

/-- The name of the lemma about `f` and its counterpart (`correspondence`). -/
def correspondenceName (f : Function) : String := "vc_" ++ f.name ++ "_corres"

/-- Names for the `params` of `f`, as identifiers. -/
def nameParams (f : Function) (s : NameSupply Slot) : List Term × NameSupply Slot :=
  let (names, s') := s.names (f.params.zipIdx.map fun (p, i) => (.param i, p.1))
  (names.map .ident, s')

/-- `values` for the parameters, with the types of these. -/
def typedValues (f : Function) (values : List Term) : List (SourceTy × Term) :=
  (f.params.map Prod.snd).zip values

/-- The `values` of the parameters, boxed by `constructValue`. -/
def boxedValues (f : Function) (values : List Term) : List Term :=
  (f.typedValues values).map fun (ty, v) => constructValue v ty

end Function

/-! ## The definition of the counterpart -/

/-- Where the counterpart of a function gets a type parameter from: `given` as a parameter of its
    own, or `recovered` from the values. -/
inductive TypeArg where
  | given (name : Ident)
  | recovered (t : Term)

/-- The closed type that a `TypeArg` stands for. -/
def TypeArg.term : TypeArg → Term
  | .given name => .ident name
  | .recovered t => t

/-- The parameter of the counterpart for a `TypeArg` that is `given`. -/
def TypeArg.param? : TypeArg → Option Term
  | .given name => some (.ident name)
  | .recovered _ => none

/-- Where each type parameter comes from, given the types and values of the arguments by `args`. -/
def typeArgs (args : List (SourceTy × Term)) :
    NameSupply Slot → (index : Nat) → List String → List TypeArg × NameSupply Slot
  | s, _, [] => ([], s)
  | s, index, tv :: tvs =>
    match recover? tv ctx.valueMap args with
    | some t =>
      let (others, s') := typeArgs args s (index + 1) tvs
      (.recovered t :: others, s')
    | none =>
      let (name, s₁) := s.name (.typeParam index) tv
      let (others, s₂) := typeArgs args s₁ (index + 1) tvs
      (.given name :: others, s₂)

/-- The definition of the counterpart of `f`: the unboxed result of the call, or, if there is none,
    some value of the return type. -/
def vcFunction (f : Function) : Except Error Decl := do
  let (funName, s₀) := ({} : NameSupply Slot).name .function f.name
  let (values, s₁) := f.nameParams s₀
  let (types, s₂) := typeArgs (f.typedValues values) s₁ 0 f.typeParams
  let (resultName, _) := s₂.name .result "res"
  let closedTypes := types.map TypeArg.term
  let call : Term :=
    .call funName [.list (closedTypes.map closedToTy), .list (f.boxedValues values)]
  let retType ← closedType (Table.ofList (f.typeParams.zip closedTypes)) f.ret
  let result : Term := .ident resultName
  let body : Term := .caseOf call
    [(someOf result, destructValue result f.ret),
     (noneOf, destructValue (valOfClosedTy ctx.valueMap retType) f.ret)]
  let lhs := [ctx.valueMap, .ident funName] ++ types.filterMap TypeArg.param? ++ values
  return .function f.vcName none [{ lhs, rhs := body }]

/-! ## The lemma about the counterpart -/

/-- The names in the lemma `correspondence` about a function. -/
structure CorrespondenceNames where
  function : Ident
  typeParams : List Ident
  values : List Term
  witness : Ident

/-- Name the function `f`, its type parameters, its parameters and the witness, in this order. -/
def Function.correspondenceNames (f : Function) : CorrespondenceNames :=
  let (function, s₀) := ({} : NameSupply Slot).name .function f.name
  let (typeParams, s₁) := s₀.names (f.typeParams.zipIdx.map fun (tv, i) => (.typeParam i, tv))
  let (values, s₂) := f.nameParams s₁
  let (witness, _) := s₂.name .witness "z"
  { function, typeParams, values, witness }

namespace CorrespondenceNames

variable (n : CorrespondenceNames) (f : Function)

/-- The types in `sourceCall`. -/
def typeList : Term := .list (n.typeParams.map .ident)

/-- The values in `sourceCall`, boxed. -/
def valueList : Term := .list (f.boxedValues n.values)

/-- The call of the function `f` itself. -/
def sourceCall : Term := .call n.function [n.typeList, n.valueList f]

/-- The call of the counterpart of `f`, with the type parameters that are not `isImplicit`. -/
def vcCall : Term :=
  let explicit := (f.typeParams.zip n.typeParams).filter fun (tv, _) => !f.isImplicit tv
  .call f.vcName
    ([ctx.valueMap, .ident n.function] ++ explicit.map (fun (_, t) => tyToClosed (.ident t)) ++
      n.values)

/-- The open type that the type parameter `name` stands for. -/
def tyvar (name : String) : Option Term :=
  ((f.typeParams.zip n.typeParams).lookup name).map .ident

/-- Labels and statements of the assumptions that the `typeParams` are closed. -/
def closedAssumptions : List (String × Term) :=
  n.typeParams.zipIdx.map fun (t, i) => ("closed" ++ toString i, closed (.ident t))

/-- Labels and statements of the assumptions about the types of arguments that are not
    `isPrimitive`. -/
def argAssumptions : Except Error (List (String × Term)) :=
  let args := (f.typedValues n.values).zipIdx.filter fun ((ty, _), _) => !ty.isPrimitive
  args.mapM fun ((ty, v), i) => do
    let t ← openType (n.tyvar f) ty
    return ("typeOfArg" ++ toString i, .eq (typeOfVal ctx.valueMap v) t)

/-- The steps that `recover?` the type parameters from the arguments, given by `refs` the labels of
    the assumptions about these. -/
def recoverySteps (refs : String) : List String :=
  let recovered := (f.typeParams.zip n.typeParams).zipIdx.filterMap fun ((tv, t), i) =>
    (recover? tv ctx.valueMap (f.typedValues n.values)).map fun ext => (t, ext, i)
  recovered.zipIdx.map fun ((t, ext, i), position) =>
    let lead := if position = 0 then "from" else "moreover from"
    let fact : Term := .eq (.ident t) (closedToTy ext)
    words [lead, refs] ++ " have " ++ fact.quoted ++ " using closed_inv2 closed" ++ toString i ++
      " by auto"

/-- The facts about the type parameters that are passed on in `vcCall`. -/
def explicitFacts : List String :=
  f.typeParams.zipIdx.filterMap fun (tv, i) =>
    if f.isImplicit tv then none else some ("closed_inv2_2[OF closed" ++ toString i ++ "]")

/-- The script of the lemma, given by `argLabels` the labels of the assumptions about the
    arguments. -/
def script (argLabels : List String) : Script :=
  let refs := " ".intercalate argLabels
  let witness : Term := .eq (n.sourceCall f) (someOf (constructValue (.ident n.witness) f.ret))
  let closedLabels := n.closedAssumptions.map Prod.fst
  let recovery := n.recoverySteps f refs
  let using_ :=
    if argLabels.isEmpty then "" else "using " ++ words (argLabels ++ explicitFacts f)
  ["proof -",
   words ["from", refs, "FInterp"] ++ " obtain " ++ n.witness ++ " where W: " ++ witness.quoted,
   "  apply (simp only: fun_interp_single_wf.simps)",
   "  apply (erule allE[where ?x=" ++ n.typeList.quoted ++ "])",
   if closedLabels.isEmpty then "  apply simp"
   else "  apply (simp add: " ++ " ".intercalate closedLabels ++ ")",
   "  apply (erule allE[where ?x=" ++ (n.valueList f).quoted ++ "])",
   match f.ret with
   | .bool => "using tbool_boolv by auto"
   | .int => "using tint_intv by auto"
   | _ => "by auto"] ++
  recovery ++
  [words [if recovery.length > 1 then "ultimately" else "from this", "show ?thesis", using_],
   "by (simp add: W) qed"]

end CorrespondenceNames

/-- The lemma that the function `f` agrees with its counterpart. -/
def correspondence (f : Function) : Except Error Lemma := do
  let n := f.correspondenceNames
  let decl ← functionDecl f
  let args ← n.argAssumptions f
  return {
    name := f.correspondenceName
    assumptions :=
      [("FInterp", funInterpSingleWf ctx.valueMap decl (.ident n.function))] ++
        n.closedAssumptions ++ args
    statement := .eq (n.sourceCall f) (someOf (constructValue (n.vcCall f) f.ret))
    script := n.script f (args.map Prod.fst) }

/-- The `definitions` of all counterparts and the lemmas about them. -/
structure FunctionPhase where
  definitions : List Decl
  correspondences : List Lemma

/-- The declarations of the phase, `definitions` first. -/
def FunctionPhase.decls (p : FunctionPhase) : List Decl :=
  p.definitions ++ p.correspondences.map .statement

/-- Define the counterparts of `functions` (`vcFunction`), then prove the lemmas about them
    (`correspondence`). -/
def functionPhase (functions : List Function) : Except Error FunctionPhase := do
  let definitions ← functions.mapM vcFunction
  let correspondences ← functions.mapM correspondence
  return { definitions, correspondences }

end Warrant
