import Mathlib.Data.List.Nodup
import Warrant.Proofs.NameSupplies
import Warrant.Proofs.TypeRecovery

/-!
# Functions and their counterparts

The counterpart of a function calls the function with types that it was given or recovers from the
values, and with the boxed values.  The lemma about both says that the call with the lemma's types
and values agrees with the counterpart.  The definition and the lemma choose their names
independently, and pass type parameters in different ways.

* `Function.definitionNames`: the names in the definition.  They are all different (`nodup_params`).
* `argPairs`: each parameter of the definition with the argument that the lemma has for it.
* `FunctionCall.denote`: whom a call calls, with which types and which values.
* `counterpart_calls_alike`: the definition, at the arguments of the lemma, makes the call that the
  lemma is about.
-/

namespace Warrant

open Semantics
open Vocabulary (someOf noneOf)

/-! ## The names in a definition -/

/-- The name that a `TypeArg` is `given` under. -/
def TypeArg.name? : TypeArg → Option Ident
  | .given name => some name
  | .recovered _ => none

/-- `param?` is `name?` as a term. -/
private theorem TypeArg.param?_eq (arg : TypeArg) : arg.param? = arg.name?.map .ident := by
  cases arg <;> rfl

/-- The type parameters that `recover?` does not find, with their positions, as requests for
    names. -/
def givenRequests (args : List (SourceTy × Term)) (index : Nat) (tvs : List String) :
    List (Slot × String) :=
  ((tvs.zipIdx index).filter fun p => (recover? p.1 ctx.valueMap args).isNone).map fun p =>
    (.typeParam p.2, p.1)

/-- `typeArgs` takes names for `givenRequests`, the type parameters that are not recovered. -/
theorem typeArgs_names (args : List (SourceTy × Term)) (s : NameSupply Slot) (index : Nat)
    (tvs : List String) :
    ((typeArgs args s index tvs).1.filterMap TypeArg.name?, (typeArgs args s index tvs).2) =
      s.names (givenRequests args index tvs) := by
  induction tvs generalizing s index with
  | nil => rfl
  | cons tv tvs ih =>
    rw [typeArgs]
    -- A type parameter that is recovered takes no name, any other one takes the next.
    cases hrecover : recover? tv ctx.valueMap args with
    | some t =>
      have hrequests : givenRequests args index (tv :: tvs) =
          givenRequests args (index + 1) tvs := by
        simp [givenRequests, hrecover]
      rw [hrequests, ← ih]
      rfl
    | none =>
      have hrequests : givenRequests args index (tv :: tvs) =
          (.typeParam index, tv) :: givenRequests args (index + 1) tvs := by
        simp [givenRequests, hrecover]
      rw [hrequests, NameSupply.names_cons, ← ih]
      rfl

/-- Where the type parameter `tv` comes from is decided by whether `recover?` finds it. -/
def Sourced (args : List (SourceTy × Term)) (tv : String) : TypeArg → Prop
  | .given _ => recover? tv ctx.valueMap args = none
  | .recovered t => recover? tv ctx.valueMap args = some t

/-- `typeArgs` goes along the type parameters, and each is `Sourced`. -/
private theorem typeArgs_sourced (args : List (SourceTy × Term)) (s : NameSupply Slot) (index : Nat)
    (tvs : List String) : List.Forall₂ (Sourced args) tvs (typeArgs args s index tvs).1 := by
  induction tvs generalizing s index with
  | nil => exact .nil
  | cons tv tvs ih =>
    rw [typeArgs]
    cases hrecover : recover? tv ctx.valueMap args with
    | some t => exact .cons hrecover (ih s (index + 1))
    | none => exact .cons hrecover (ih _ (index + 1))

/-- The names in the definition of a counterpart (`vcFunction`), and where its type parameters come
    from. -/
structure DefinitionNames where
  function : Ident
  values : List Ident
  types : List TypeArg
  result : Ident

/-- The parameters of the counterpart: `A`, the function, the `types` that are given, and the
    `values`. -/
def DefinitionNames.params (n : DefinitionNames) : List Ident :=
  ["A", n.function] ++ n.types.filterMap TypeArg.name? ++ n.values

namespace Function

variable (f : Function)

/-- The parameters of `f` with their positions, as requests for names. -/
def paramRequests : List (Slot × String) := f.params.zipIdx.map fun p => (.param p.2, p.1.1)

/-- The names in the definition of the counterpart of `f`, as `vcFunction` takes them. -/
def definitionNames : DefinitionNames :=
  let first := ({} : NameSupply Slot).name .function f.name
  let values := first.2.names f.paramRequests
  let types := typeArgs (f.typedValues (values.1.map .ident)) values.2 0 f.typeParams
  { function := first.1, values := values.1, types := types.1,
    result := (types.2.name .result "res").1 }

/-- `nameParams` answers `paramRequests`: a value for each parameter. -/
private theorem nameParams_eq (s : NameSupply Slot) :
    f.nameParams s = ((s.names f.paramRequests).1.map .ident, (s.names f.paramRequests).2) :=
  rfl

/-- There is one request for each parameter. -/
private theorem length_paramRequests : f.paramRequests.length = f.params.length := by
  simp [paramRequests]

/-- All names in `definitionNames` come from one supply. -/
theorem definitionNames_eq :
    f.definitionNames.function :: f.definitionNames.values ++
      f.definitionNames.types.filterMap TypeArg.name? =
      (({} : NameSupply Slot).names ((.function, f.name) :: f.paramRequests ++
        givenRequests (f.typedValues (f.definitionNames.values.map .ident)) 0 f.typeParams)).1 := by
  rw [NameSupply.names_append, NameSupply.names_cons]
  have hgiven := typeArgs_names (f.typedValues (f.definitionNames.values.map .ident))
    ((({} : NameSupply Slot).name .function f.name).2.names f.paramRequests).2 0 f.typeParams
  exact congrArg (f.definitionNames.function :: f.definitionNames.values ++ ·)
    (congrArg Prod.fst hgiven)

/-- Names are asked for under different keys, each its own `Slot`. -/
theorem nodup_keys (args : List (SourceTy × Term)) :
    (((.function, f.name) :: f.paramRequests ++ givenRequests args 0 f.typeParams).map
      Prod.fst).Nodup := by
  -- Parameters of one kind are told apart by their positions.
  have hpositions {α : Type} (l : List α) {slot : Nat → Slot} (hslot : Function.Injective slot) :
      (l.zipIdx.map fun p => slot p.2).Nodup := by
    have hmap : (l.zipIdx.map fun p => slot p.2) = (l.zipIdx.map Prod.snd).map slot := by
      rw [List.map_map]
      rfl
    rw [hmap, List.zipIdx_map_snd]
    exact List.Nodup.map hslot List.nodup_range'
  have hparams : (f.paramRequests.map Prod.fst).Nodup := by
    rw [paramRequests, List.map_map]
    exact hpositions f.params fun _ _ => Slot.param.inj
  have hgiven : ((givenRequests args 0 f.typeParams).map Prod.fst).Nodup := by
    rw [givenRequests, List.map_map]
    exact (hpositions f.typeParams fun _ _ => Slot.typeParam.inj).sublist
      (List.filter_sublist.map _)
  -- The kinds of slots keep the three parts apart.
  rw [List.cons_append, List.map_cons, List.map_append, List.nodup_cons, List.nodup_append']
  refine ⟨?_, hparams, hgiven, ?_⟩
  · simp [paramRequests, givenRequests]
  · intro slot hparam htype
    obtain ⟨p, _, rfl⟩ : ∃ p ∈ f.params.zipIdx, Slot.param p.2 = slot := by
      simpa [paramRequests] using hparam
    simp [givenRequests] at htype

/-- The `params` of a counterpart are all different. -/
theorem nodup_params : f.definitionNames.params.Nodup := by
  have hnames := f.definitionNames_eq
  have hnodup := (NameSupply.distinct_empty "_").nodup_names
    (f.nodup_keys (f.typedValues (f.definitionNames.values.map .ident)))
  -- `A` is reserved, so the supply gives it to nobody.
  have hreserved := (NameSupply.unreserved_empty "_").not_mem_names NameSupply.plainSpacer_default
    ((.function, f.name) :: f.paramRequests ++
      givenRequests (f.typedValues (f.definitionNames.values.map .ident)) 0 f.typeParams)
  rw [← hnames] at hnodup hreserved
  -- The definition lists types before values.
  have hperm : (f.definitionNames.types.filterMap TypeArg.name? ++ f.definitionNames.values).Perm
      (f.definitionNames.values ++ f.definitionNames.types.filterMap TypeArg.name?) :=
        List.perm_append_comm
  exact List.nodup_cons.2 ⟨fun hmem => hreserved ((hperm.cons _).mem_iff.1 hmem),
    (hperm.cons _).nodup_iff.2 hnodup⟩

/-! ## Parameters and arguments -/

/-- The definition has one value for each parameter. -/
private theorem length_definition_values : f.definitionNames.values.length = f.params.length := by
  rw [← f.length_paramRequests]
  exact NameSupply.length_names _ _

/-- The lemma has one name for each type parameter. -/
private theorem length_lemma_typeParams :
    f.correspondenceNames.typeParams.length = f.typeParams.length := by
  simp [correspondenceNames, NameSupply.length_names]

/-- The lemma has one value for each parameter. -/
private theorem length_lemma_values : f.correspondenceNames.values.length = f.params.length := by
  rw [← f.length_paramRequests]
  simp [correspondenceNames, nameParams_eq, NameSupply.length_names]

/-- The values of the definition of `f`, with the types of the parameters. -/
def definitionArgs : List (SourceTy × Term) := f.typedValues (f.definitionNames.values.map .ident)

/-- The `types` of the definition are `Sourced`, one for each type parameter. -/
theorem sourced : List.Forall₂ (Sourced f.definitionArgs) f.typeParams f.definitionNames.types :=
  typeArgs_sourced ..

/-- Each parameter of the counterpart (`params`) with what the lemma `correspondence` passes for
    it. -/
def argPairs : List (Ident × Term) :=
  [("A", ctx.valueMap), (f.definitionNames.function, .ident f.correspondenceNames.function)] ++
    (f.definitionNames.types.zip f.correspondenceNames.typeParams).filterMap
      (fun p => p.1.name?.map fun name => (name, tyToClosed (.ident p.2))) ++
    f.definitionNames.values.zip f.correspondenceNames.values

/-- The first components of `argPairs` are the `params` of the counterpart. -/
private theorem map_fst_argPairs : f.argPairs.map Prod.fst = f.definitionNames.params := by
  have htypes : f.definitionNames.types.length ≤ f.correspondenceNames.typeParams.length :=
    Nat.le_of_eq (by rw [length_lemma_typeParams, f.sourced.length_eq])
  have hvalues : f.definitionNames.values.length ≤ f.correspondenceNames.values.length :=
    Nat.le_of_eq (by rw [length_lemma_values, length_definition_values])
  -- The names that are given stand in the order of the type parameters.
  have hgiven (types : List TypeArg) (ts : List Ident) (hlen : types.length ≤ ts.length) :
      ((types.zip ts).filterMap fun p => p.1.name?.map fun name =>
          (name, tyToClosed (.ident p.2))).map Prod.fst =
        types.filterMap TypeArg.name? := by
    rw [List.map_filterMap]
    conv_rhs => rw [← List.map_fst_zip hlen, List.filterMap_map]
    refine congrArg (List.filterMap · _) (funext fun p => ?_)
    cases h : p.1.name? <;> simp [h]
  rw [argPairs, List.map_append, List.map_append, hgiven _ _ htypes, List.map_fst_zip hvalues]
  rfl

/-- A type parameter `isImplicit` exactly if the definition recovers it. -/
theorem isImplicit_eq (tv : String) :
    f.isImplicit tv = (recover? tv ctx.valueMap f.definitionArgs).isSome := by
  have hiff := @recover?_isSome_iff tv ctx.valueMap (f.params.map Prod.snd)
    (f.definitionNames.values.map .ident)
    (by rw [List.length_map, List.length_map, length_definition_values])
  rw [Bool.eq_iff_iff]
  refine Iff.trans ?_ hiff.symm
  simp only [isImplicit, List.any_eq_true, List.mem_map, exists_exists_and_eq_and]

/-- `vcCall` passes the second components of `argPairs`: the closed forms of the type parameters for
    which the definition has parameters, and the values. -/
private theorem map_snd_argPairs :
    f.correspondenceNames.vcCall f = .call f.vcName (f.argPairs.map Prod.snd) := by
  have hvalues : f.correspondenceNames.values.length ≤ f.definitionNames.values.length :=
    Nat.le_of_eq (by rw [length_lemma_values, length_definition_values])
  -- Along the type parameters, the definition has a parameter where the lemma passes one on.
  have hgiven (tvs : List String) (types : List TypeArg) (ts : List Ident)
      (hsourced : List.Forall₂ (Sourced f.definitionArgs) tvs types) :
      ((types.zip ts).filterMap fun p => p.1.name?.map fun name =>
          (name, tyToClosed (.ident p.2))).map Prod.snd =
        ((tvs.zip ts).filter fun p => !f.isImplicit p.1).map fun p => tyToClosed (.ident p.2) := by
    induction hsourced generalizing ts with
    | nil => rfl
    | @cons tv arg tvs types h _ ih =>
      cases ts with
      | nil => rfl
      | cons t ts =>
        cases arg with
        | given name =>
          have hexplicit : f.isImplicit tv = false := by rw [isImplicit_eq, h]; rfl
          simp only [List.zip_cons_cons, List.filterMap_cons, TypeArg.name?, Option.map_some,
            List.map_cons, List.filter_cons, hexplicit, Bool.not_false, if_true]
          exact congrArg _ (ih ts)
        | recovered r =>
          have himplicit : f.isImplicit tv = true := by rw [isImplicit_eq, h]; rfl
          simp only [List.zip_cons_cons, List.filterMap_cons, TypeArg.name?, Option.map_none,
            List.filter_cons, himplicit, Bool.not_true, Bool.false_eq_true, if_false]
          exact ih ts
  rw [argPairs, List.map_append, List.map_append, hgiven _ _ _ f.sourced, List.map_snd_zip hvalues]
  rfl

end Function

/-! ## Calls -/

/-- A call of the function `head` with types and values. -/
structure FunctionCall where
  head : Ident
  types : List Term
  values : List Term

namespace FunctionCall

variable {D : Type}

/-- The call as a term. -/
def term (c : FunctionCall) : Term := .call c.head [.list c.types, .list c.values]

/-- What a call denotes: who is called with which types and which values. -/
def denote (I : Interpretation D) (e : Env D) (c : FunctionCall) : D × List D × List D :=
  (e c.head, c.types.map (Term.denote I e), c.values.map (Term.denote I e))

end FunctionCall

namespace Function

variable {f : Function}

/-- The call in the definition of the counterpart, `vcFunction`. -/
def definitionCall (f : Function) : FunctionCall where
  head := f.definitionNames.function
  types := (f.definitionNames.types.map TypeArg.term).map closedToTy
  values := f.boxedValues (f.definitionNames.values.map .ident)

/-- The call that the lemma `correspondence` is about. -/
def lemmaCall (f : Function) : FunctionCall where
  head := f.correspondenceNames.function
  types := f.correspondenceNames.typeParams.map .ident
  values := f.boxedValues f.correspondenceNames.values

/-- What the counterpart makes of the result: the arms of its `caseOf`. -/
def definitionArms (f : Function) (retType : Term) : List (Term × Term) :=
  [(someOf (.ident f.definitionNames.result),
      destructValue (.ident f.definitionNames.result) f.ret),
   (noneOf, destructValue (valOfClosedTy ctx.valueMap retType) f.ret)]

/-- `vcFunction` in terms of `definitionNames` and `definitionCall`. -/
private theorem vcFunction_eq (f : Function) :
    vcFunction f = (do
      let retType ← closedType (Table.ofList
        (f.typeParams.zip (f.definitionNames.types.map TypeArg.term))) f.ret
      return .function f.vcName none
        [{ lhs := [ctx.valueMap, .ident f.definitionNames.function] ++
            f.definitionNames.types.filterMap TypeArg.param? ++ f.definitionNames.values.map .ident
           rhs := .caseOf f.definitionCall.term (f.definitionArms retType) }]) :=
  rfl

/-- A definition from `vcFunction` has a term for the return type, and its equation is over
    `params`. -/
theorem exists_retType_of_vcFunction {decl : Decl} (h : vcFunction f = .ok decl) :
    ∃ retType,
      closedType (Table.ofList (f.typeParams.zip (f.definitionNames.types.map TypeArg.term)))
        f.ret = .ok retType ∧
      decl = .function f.vcName none
        [{ lhs := f.definitionNames.params.map .ident
           rhs := .caseOf f.definitionCall.term (f.definitionArms retType) }] := by
  rw [vcFunction_eq] at h
  obtain ⟨retType, hret, h⟩ := bind_eq_ok_iff.1 h
  have hlhs : [ctx.valueMap, .ident f.definitionNames.function] ++
      f.definitionNames.types.filterMap TypeArg.param? ++ f.definitionNames.values.map .ident =
        f.definitionNames.params.map .ident := by
    simp [DefinitionNames.params, List.map_filterMap, TypeArg.param?_eq, ctx]
  rw [hlhs] at h
  exact ⟨retType, hret, (Except.ok.inj h).symm⟩

/-- The equation of a definition from `vcFunction`, whatever its arms are. -/
private theorem vcFunction_eq_ok {decl : Decl} (h : vcFunction f = .ok decl) :
    ∃ arms, decl = .function f.vcName none
      [{ lhs := f.definitionNames.params.map .ident,
         rhs := .caseOf f.definitionCall.term arms }] := by
  obtain ⟨retType, _, hdecl⟩ := exists_retType_of_vcFunction h
  exact ⟨f.definitionArms retType, hdecl⟩

/-- The assumptions and the statement of a lemma from `correspondence`. -/
private theorem correspondence_eq_ok {l : Lemma} (h : correspondence f = .ok l) :
    ∃ interpreted args, f.correspondenceNames.argAssumptions f = .ok args ∧
      l.assumptions = ("FInterp", interpreted) :: f.correspondenceNames.closedAssumptions ++ args ∧
      l.statement =
        .eq f.lemmaCall.term (someOf (constructValue (.call f.vcName (f.argPairs.map Prod.snd))
          f.ret)) := by
  obtain ⟨decl, _, h⟩ := bind_eq_ok_iff.1 h
  obtain ⟨args, hargs, h⟩ := bind_eq_ok_iff.1 h
  obtain rfl := Except.ok.inj h
  refine ⟨_, args, hargs, rfl, ?_⟩
  rw [← map_snd_argPairs]
  rfl

/-! ## Both calls are the same -/

variable {D : Type} {I : Interpretation D} {e inner : Env D} {Holds : D → Prop}

/-- The assumptions of the lemma about types: what the type parameters stand for is closed, and the
    values have the types of the parameters. -/
structure Typed (f : Function) (I : Interpretation D) (e : Env D) (Holds : D → Prop) : Prop where
  closed : ∀ t ∈ f.correspondenceNames.typeParams, Holds ((closed (.ident t)).denote I e)
  values : ∀ ty v, (ty, v) ∈ f.typedValues f.correspondenceNames.values → ty.isPrimitive = false →
    ∃ t, openType (f.correspondenceNames.tyvar f) ty = .ok t ∧
      Holds ((Term.eq (typeOfVal ctx.valueMap v) t).denote I e)

/-- A numbered label is not `FInterp`, if it starts with another letter. -/
private theorem numbered_ne {label : String} {c : Char} {cs : List Char}
    (hlabel : label.toList = c :: cs) (hc : c ≠ 'F') (i : Nat) :
    label ++ toString i ≠ "FInterp" := by
  intro heq
  have hlist := congrArg String.toList heq
  rw [String.toList_append, hlabel] at hlist
  exact hc (List.cons.inj hlist).1

/-- The assumptions of the lemma, but for `FInterp`, say that the values are `Typed`. -/
private theorem typed_of_assumptions {l : Lemma} (hl : correspondence f = .ok l)
    (hassumptions : ∀ p ∈ l.assumptions, p.1 ≠ "FInterp" → Holds (p.2.denote I e)) :
    f.Typed I e Holds := by
  obtain ⟨interpreted, args, hargs, hl, _⟩ := correspondence_eq_ok hl
  rw [hl] at hassumptions
  constructor
  · -- Each type parameter has an assumption that it is closed, numbered by its position.
    intro t ht
    obtain ⟨i, hi⟩ := List.getElem?_of_mem ht
    have hmem : ("closed" ++ toString i, closed (.ident t)) ∈
        f.correspondenceNames.closedAssumptions :=
      List.mem_map.2 ⟨(t, i), List.mem_zipIdx_iff_getElem?.2 hi, rfl⟩
    exact hassumptions _ (List.mem_append_left args (List.mem_cons_of_mem _ hmem))
      (numbered_ne rfl (by decide) i)
  · -- Each value of a type that is not primitive has an assumption about its type.
    intro ty v hmem hty
    obtain ⟨i, hi⟩ := List.getElem?_of_mem hmem
    have hfilter : ((ty, v), i) ∈
        (f.typedValues f.correspondenceNames.values).zipIdx.filter fun p => !p.1.1.isPrimitive :=
      List.mem_filter.2 ⟨List.mem_zipIdx_iff_getElem?.2 hi, by simp [hty]⟩
    obtain ⟨p, hp, hp'⟩ := exists_mem_of_mapM_eq_ok hargs hfilter
    obtain ⟨t, ht, hp'⟩ := bind_eq_ok_iff.1 hp'
    obtain rfl := Except.ok.inj hp'
    exact ⟨t, ht, hassumptions _ (List.mem_append_right _ hp) (numbered_ne rfl (by decide) i)⟩

/-- The environment of the definition at the arguments of the lemma. -/
def definitionEnv (f : Function) (I : Interpretation D) (e : Env D) : Env D :=
  e.under (f.argPairs.map fun p => (p.1, p.2.denote I e))

/-- In `definitionEnv` a parameter denotes its argument, as the parameters are all different. -/
private theorem definitionEnv_of_mem {x : Ident} {t : Term} (h : (x, t) ∈ f.argPairs) :
    f.definitionEnv I e x = t.denote I e := by
  refine Env.under_of_mem ?_ (List.mem_map.2 ⟨(x, t), h, rfl⟩)
  have hparams : (f.argPairs.map fun p => (p.1, p.2.denote I e)).map Prod.fst =
      f.definitionNames.params := by
    rw [← map_fst_argPairs, List.map_map]
    rfl
  rw [hparams]
  exact f.nodup_params

/-- In `definitionEnv` other identifiers denote what they do outside. -/
private theorem definitionEnv_of_not_mem {x : Ident} (h : x ∉ f.definitionNames.params) :
    f.definitionEnv I e x = e x := by
  refine Env.under_of_not_mem ?_
  rwa [List.map_map, ← map_fst_argPairs] at *

/-- The values of the definition denote what those of the lemma do. -/
private theorem denote_values :
    (f.definitionNames.values.map .ident).map (Term.denote I (f.definitionEnv I e)) =
      f.correspondenceNames.values.map (Term.denote I e) := by
  have hlen : f.definitionNames.values.length = f.correspondenceNames.values.length := by
    rw [length_lemma_values, length_definition_values]
  rw [← List.map_fst_zip (Nat.le_of_eq hlen)]
  conv_rhs => rw [← List.map_snd_zip (Nat.le_of_eq hlen.symm)]
  simp only [List.map_map]
  refine List.map_congr_left fun p hp => definitionEnv_of_mem ?_
  simp [argPairs, hp]

/-- Box what a value of a type denotes, as `constructValue` does to the term. -/
def box (I : Interpretation D) (e : Env D) (p : SourceTy × D) : D :=
  match p.1 with
  | .int => I.app (e "IntV") [p.2]
  | .bool => I.app (e "BoolV") [p.2]
  | _ => p.2

/-- `boxedValues` denote what `box` makes of the values, if the constants that box are not bound. -/
private theorem denote_boxedValues (hconst : ∀ x, CallConstant x → inner x = e x)
    (values : List Term) : (f.boxedValues values).map (Term.denote I inner) =
      ((f.params.map Prod.snd).zip (values.map (Term.denote I inner))).map (box I e) := by
  rw [boxedValues, typedValues, List.zip_map_right, List.map_map, List.map_map]
  refine List.map_congr_left fun (ty, v) _ => ?_
  cases ty with
  | int =>
    show I.app (inner "IntV") [v.denote I inner] = I.app (e "IntV") [v.denote I inner]
    rw [hconst _ .intV]
  | bool =>
    show I.app (inner "BoolV") [v.denote I inner] = I.app (e "BoolV") [v.denote I inner]
    rw [hconst _ .boolV]
  | var | ctor => rfl

section

variable (L : Library I e Holds) (hconst : ∀ x ∈ f.definitionNames.params, ¬CallConstant x)

include hconst

/-- No parameter is a `CallConstant`, so `definitionEnv` leaves these as they are. -/
private theorem definitionEnv_constant (x : Ident) (hx : CallConstant x) :
    f.definitionEnv I e x = e x :=
  definitionEnv_of_not_mem fun hmem => hconst x hmem hx

include L

/-- Each type of the definition's call is the one of the lemma's call, whether it was `given` or
    `recovered`. -/
private theorem denote_typeArg (htyped : f.Typed I e Holds) (hnodup : f.typeParams.Nodup)
    {v : String} {arg : TypeArg} {t : Ident}
    (hv : (v, t) ∈ f.typeParams.zip f.correspondenceNames.typeParams)
    (harg : (arg, t) ∈ f.definitionNames.types.zip f.correspondenceNames.typeParams)
    (hsourced : Sourced f.definitionArgs v arg) :
    (closedToTy arg.term).denote I (f.definitionEnv I e) = e t := by
  -- In both cases the closed form of the type is turned back into the type.
  suffices hclosed : arg.term.denote I (f.definitionEnv I e) = closedForm I e (.ident t) by
    show I.app (f.definitionEnv I e "closed_to_ty") [arg.term.denote I (f.definitionEnv I e)] = e t
    rw [definitionEnv_constant hconst _ .closedToTy, hclosed]
    exact L.closedToTy_tyToClosed (e t) (htyped.closed t (List.of_mem_zip hv).2)
  cases arg with
  | given name =>
    have hmem : (name, tyToClosed (.ident t)) ∈ f.argPairs := by
      refine List.mem_append_left _ (List.mem_append_right _ ?_)
      exact List.mem_filterMap.2 ⟨(.given name, t), harg, rfl⟩
    exact definitionEnv_of_mem hmem
  | recovered r =>
    have hmap : f.definitionEnv I e "A" = e "A" :=
      definitionEnv_of_mem (t := ctx.valueMap) (by simp [argPairs])
    have htypes : ∀ ty v, (ty, v) ∈ (f.params.map Prod.snd).zip f.correspondenceNames.values →
        ty.isPrimitive = false → ∃ t, openType (f.correspondenceNames.tyvar f) ty = .ok t ∧
          (typeOfVal ctx.valueMap v).denote I e = t.denote I e := by
      intro ty v hmem hty
      obtain ⟨t, ht, hholds⟩ := htyped.values ty v hmem hty
      exact ⟨t, ht, L.eq_of_holds _ _ hholds⟩
    obtain ⟨u, hu, hdenote⟩ :=
      L.denote_recovered (definitionEnv_constant hconst) hmap denote_values htypes hsourced
    -- The type parameter has one name in the lemma.
    have htyvar : f.correspondenceNames.tyvar f v = some (.ident t) := by
      have hkeys : ((f.typeParams.zip f.correspondenceNames.typeParams).map Prod.fst).Nodup := by
        rwa [List.map_fst_zip (Nat.le_of_eq f.length_lemma_typeParams.symm)]
      rw [CorrespondenceNames.tyvar, lookup_of_mem hkeys hv]
      rfl
    rw [Option.some.inj (htyvar.symm.trans hu)]
    exact hdenote

/-- At the arguments of the lemma `definitionCall` denotes what `lemmaCall` does. -/
private theorem denote_definitionCall (htyped : f.Typed I e Holds) (hnodup : f.typeParams.Nodup) :
    f.definitionCall.denote I (f.definitionEnv I e) = f.lemmaCall.denote I e := by
  have hhead : f.definitionEnv I e f.definitionNames.function = e f.correspondenceNames.function :=
    definitionEnv_of_mem (t := .ident f.correspondenceNames.function) (by simp [argPairs])
  have htypes : f.definitionCall.types.map (Term.denote I (f.definitionEnv I e)) =
      f.lemmaCall.types.map (Term.denote I e) := by
    -- Position by position: the type parameter decides where both calls get the type from.
    have hlen := f.sourced.length_eq
    have hlen' := f.length_lemma_typeParams
    refine List.ext_getElem (by simp [definitionCall, lemmaCall, hlen, hlen']) fun i h₁ h₂ => ?_
    have hi : i < f.typeParams.length := by simpa [lemmaCall, hlen'] using h₂
    simp only [definitionCall, lemmaCall, List.getElem_map]
    refine denote_typeArg L hconst htyped hnodup (v := f.typeParams[i]) ?_ ?_
      (f.sourced.get hi (hlen ▸ hi))
    · exact List.mem_iff_getElem.2 ⟨i, by simp; omega, List.getElem_zip⟩
    · exact List.mem_iff_getElem.2 ⟨i, by simp; omega, List.getElem_zip⟩
  have hvalues : f.definitionCall.values.map (Term.denote I (f.definitionEnv I e)) =
      f.lemmaCall.values.map (Term.denote I e) := by
    rw [definitionCall, lemmaCall, denote_boxedValues (definitionEnv_constant hconst),
      denote_values, denote_boxedValues fun _ _ => rfl]
  rw [FunctionCall.denote, FunctionCall.denote, htypes, hvalues]
  exact congrArg (·, _) hhead

end

end Function

/-- The definition of a counterpart and the lemma about it describe the same call.  The lemma calls
    the counterpart with as many arguments as it has parameters, which are all different.  Where the
    assumptions of the lemma about types hold and no parameter is a constant of the library
    (`CallConstant`), the definition at these arguments calls the function of the lemma with the
    types and the values of the lemma. -/
theorem counterpart_calls_alike {functions : List Function} {phase : FunctionPhase} {f : Function}
    {i : Nat} (hphase : functionPhase functions = .ok phase) (hf : functions[i]? = some f)
    (hnodup : f.typeParams.Nodup) :
    ∃ (params : List Ident) (callee : FunctionCall) (arms : List (Term × Term)) (l : Lemma)
      (source : FunctionCall) (args : List Term),
      phase.definitions[i]? =
        some (.function f.vcName none
          [{ lhs := params.map .ident, rhs := .caseOf callee.term arms }]) ∧
      phase.correspondences[i]? = some l ∧
      l.statement = .eq source.term (someOf (constructValue (.call f.vcName args) f.ret)) ∧
      params.Nodup ∧ args.length = params.length ∧
      ∀ {D : Type} (I : Interpretation D) (e : Env D) (Holds : D → Prop), Library I e Holds →
        (∀ x ∈ params, ¬CallConstant x) →
        (∀ p ∈ l.assumptions, p.1 ≠ "FInterp" → Holds (p.2.denote I e)) →
        callee.denote I (e.under (params.zip (args.map (Term.denote I e)))) =
          source.denote I e := by
  obtain ⟨hdefinitions, hcorrespondences⟩ := functionPhase_eq_ok hphase
  obtain ⟨decl, hdecl, hvc⟩ := getElem?_of_mapM_eq_ok hdefinitions hf
  obtain ⟨l, hl, hcorrespondence⟩ := getElem?_of_mapM_eq_ok hcorrespondences hf
  obtain ⟨arms, rfl⟩ := Function.vcFunction_eq_ok hvc
  obtain ⟨_, _, _, _, hstatement⟩ := Function.correspondence_eq_ok hcorrespondence
  refine ⟨f.definitionNames.params, f.definitionCall, arms, l, f.lemmaCall, f.argPairs.map Prod.snd,
    hdecl, hl, hstatement, f.nodup_params, ?_, ?_⟩
  · rw [← f.map_fst_argPairs, List.length_map, List.length_map]
  · intro D I e Holds L hconst hassumptions
    -- `argPairs` has the parameters with their arguments, so binding the ones to the others is
    -- `definitionEnv`.
    have henv : e.under (f.definitionNames.params.zip
        ((f.argPairs.map Prod.snd).map (Term.denote I e))) = f.definitionEnv I e := by
      rw [← f.map_fst_argPairs, List.map_map, List.zip_map']
      rfl
    rw [henv]
    exact Function.denote_definitionCall L hconst
      (Function.typed_of_assumptions hcorrespondence hassumptions) hnodup

/-! ## A polymorphic function -/

/-- A function with a type parameter `t` that its values determine and one, `s`, that they do
    not. -/
def pick : Function :=
  ⟨"pick", ["t", "s"], [("list", .ctor "List" [.var "t"]), ("n", .int)], .var "s"⟩

/-- The argument of an applied type constructor that the projection `name` leads to. -/
def projected? (name : Ident) : Term → Option Term
  | .app (.ident "TCon") [_, .list ts] =>
    ((List.range ts.length).find? fun i => projectionName i ts.length = name).bind fun i => ts[i]?
  | _ => none

/-- Apply a constant of the library to terms, in `termModel`.  Types are their own closed forms, and
    values carry their types. -/
def applied : Term → List Term → Term
  | .ident "id", [t] => t
  | .ident "type_of_val", [_, .app (.ident "value") [ty]] => ty
  | .ident name, [t] => (projected? name t).getD (.app (.ident name) [t])
  | head, args => .app head args

/-- An `Interpretation` in which terms denote terms. -/
def termModel : Interpretation Term where
  app := applied
  list := .list
  set := .set
  record := .record
  tuple := .tuple
  nary := .nary
  quant _ _ _ body := body fun _ => .lit (.bool true)
  caseOf scrutinee _ := scrutinee
  typed := .typed
  lit := .lit

/-- Constants stand for themselves in `termModel` up to the identification of types with their
    closed forms, and `list` is a list of some type `t`. -/
def termEnv : Env Term
  | "TConC" => .ident "TCon"
  | "ty_to_closed" => .ident "id"
  | "closed_to_ty" => .ident "id"
  | "vc_type_of_val" => .ident "type_of_val"
  | "list" => .app (.ident "value") [.app (.ident "TCon") [.lit (.str "List"), .list [.ident "t"]]]
  | name => .ident name

/-- Equations hold in `termModel` between equal terms. -/
def TermHolds : Term → Prop
  | .nary .eq [a, b] => a = b
  | _ => True

/-- `applied` of a constant other than `id` follows a projection or does nothing. -/
private theorem applied_of_ne {name : Ident} (h : name ≠ "id") (t : Term) :
    applied (.ident name) [t] = (projected? name t).getD (.app (.ident name) [t]) := by
  rw [applied]
  rintro rfl
  exact h rfl

/-- Every `projectionName` starts alike. -/
private theorem take_projectionName (i n : Nat) :
    (projectionName i n).toList.take 4 = ['v', 'c', '_', 'i'] := by
  simp [projectionName, String.toList_append]

/-- The name of a projection tells which argument it leads to, and of how many: `projectionName` is
    injective. -/
theorem projectionName_injective {i j n m : Nat} (h : projectionName i n = projectionName j m) :
    i = j ∧ n = m := by
  obtain ⟨hstem, hn⟩ := numbered_inj h
  exact ⟨numbered_injective "vc_inv_" hstem, hn⟩

/-- A name that starts otherwise is no `projectionName`. -/
private theorem projectionName_ne (i n : Nat) {name : String}
    (h : name.toList.take 4 ≠ ['v', 'c', '_', 'i']) : projectionName i n ≠ name := by
  rintro rfl
  exact h (take_projectionName i n)

/-- A projection stands for itself in `termEnv`. -/
private theorem termEnv_projectionName (i n : Nat) :
    termEnv (projectionName i n) = .ident (projectionName i n) := by
  unfold termEnv
  split
  iterate 5 next heq => exact absurd heq (projectionName_ne i n (by decide))
  rfl

/-- `projected?` finds the argument at the index of the projection. -/
private theorem projected?_con {ts : List Term} {i : Nat} {t : Term} (h : ts[i]? = some t)
    (d : Term) :
    projected? (projectionName i ts.length) (.app (.ident "TCon") [d, .list ts]) = some t := by
  have hfind : ((List.range ts.length).find? fun j =>
      projectionName j ts.length = projectionName i ts.length) = some i := by
    cases hfind : (List.range ts.length).find? fun j =>
        projectionName j ts.length = projectionName i ts.length with
    | none =>
      -- The index itself is in the range, so the search does not fail.
      have hlt := (List.getElem?_eq_some_iff.1 h).1
      exact absurd (decide_eq_true rfl) (List.find?_eq_none.1 hfind i (List.mem_range.2 hlt))
    | some j =>
      -- Another index has a projection of another name.
      have heq : projectionName j ts.length = projectionName i ts.length := by
        simpa using List.find?_some hfind
      rw [(projectionName_injective heq).1]
  simp only [projected?, hfind, Option.bind_some, h]

/-- `termModel` is a model of the library: all laws of `Library` hold in it. -/
private theorem termModel_library : Library termModel termEnv TermHolds where
  eq_of_holds _ _ h := h
  closedToTy_tyToClosed _ _ := rfl
  vcTypeOfVal_eq _ := rfl
  tyToClosed_con d ds := by
    have hds : (ds.map fun d => termModel.app (termEnv "ty_to_closed") [d]) = ds := List.map_id ds
    rw [hds]
    rfl
  projection_con d ds i c hc := by
    rw [termEnv_projectionName]
    show applied (.ident (projectionName i ds.length)) [.app (.ident "TCon") [d, .list ds]] = c
    rw [applied_of_ne (projectionName_ne i _ (by decide)), projected?_con hc, Option.getD_some]

/-- A name that starts as no `CallConstant` does is none. -/
private theorem not_callConstant {x : Ident}
    (h : x.toList.take 4 ∉ ["IntV".toList, "Bool".toList, "clos".toList, "vc_t".toList,
      "vc_i".toList]) : ¬CallConstant x := by
  intro hx
  cases hx with
  | projection i n => exact h (by rw [take_projectionName]; decide)
  | _ => exact h (by decide)

/-- The counterpart of `pick` recovers the type of the items from the list and gets the other type
    as an argument. -/
theorem counterpart_calls_alike_pick :
    ∃ (phase : FunctionPhase) (params : List Ident) (callee : FunctionCall)
      (arms : List (Term × Term)) (args : List Term),
      functionPhase [pick] = .ok phase ∧
      phase.definitions[0]? =
        some (.function "vc_fun_pick" none
          [{ lhs := params.map .ident, rhs := .caseOf callee.term arms }]) ∧
      callee.denote termModel
          (termEnv.under (params.zip (args.map (Term.denote termModel termEnv)))) =
        (.ident "pick", [.ident "t", .ident "s"],
          [termEnv "list", .app (.ident "IntV") [.ident "n"]]) := by
  obtain ⟨params, callee, arms, l, ⟨head, types, values⟩, args, hdef, hl, hstatement, _, _,
    hcall⟩ :=
    counterpart_calls_alike (show functionPhase [pick] = .ok _ from rfl) (i := 0) rfl (by decide)
  refine ⟨_, params, callee, arms, args, rfl, hdef, ?_⟩
  obtain rfl := Option.some.inj hl
  have hparams : params = ["A", "pick", "s", "list", "n"] := by
    injection hdef with hdef
    injection hdef with _ _ heqns
    have hlhs := congrArg Equation.lhs (List.cons.inj heqns).1
    exact (List.map_injective_iff.2 fun _ _ => Term.ident.inj) hlhs.symm
  rw [hcall termModel termEnv TermHolds termModel_library ?_ ?_]
  · -- The call of the lemma is read off its statement.
    injection hstatement with _ hsides
    injection (List.cons.inj hsides).1 with hhead hlists
    obtain rfl := Term.ident.inj hhead
    obtain ⟨htypes, hlists⟩ := List.cons.inj hlists
    obtain rfl := Term.list.inj htypes
    obtain rfl := Term.list.inj (List.cons.inj hlists).1
    rfl
  · rw [hparams]
    intro x hx
    refine not_callConstant ?_
    revert x
    decide
  · -- Two assumptions that types are closed, and one about the type of the list.
    intro p hp hlabel
    rcases hp with _ | ⟨_, _ | ⟨_, _ | ⟨_, _ | ⟨_, hp⟩⟩⟩⟩
    · exact absurd rfl hlabel
    · trivial
    · trivial
    · rfl
    · cases hp

end Warrant
