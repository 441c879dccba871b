import Mathlib.Data.List.Basic
import Warrant.Proofs.Counterparts
import Warrant.Proofs.Terms

/-!
# Names in the equations of counterparts

The equation that defines the counterpart of a function binds names: its parameters on the left, and
on the right the result of the call.  These names are all different, and what else is free on the
right is a constant of the library.

Only `A` is kept apart from the names that functions, parameters and type parameters have, so a
constant of the library may be bound too.  `mem_handed_iff` says when: the names are handed out one
after the other, and a constant is among them exactly if it is one of `stems`, or if it is a
projection and numbering leads to it.

* `over_equation`: what is free on the right.
* `result_not_mem_params`: the name of the result is a new one.
* `equation_binders`: what the equation of a counterpart binds.
* `equation_captures_constant`: a parameter that is named after a constant captures it.
-/

namespace Warrant

open Semantics
open Vocabulary (someOf noneOf)

/-! ## Constants of the library -/

/-- The constants of the library in the equations of counterparts (`vcFunction`), projections
    apart. -/
def equationConstants : List Ident :=
  ["Some", "None", "IntV", "BoolV", "closed_to_ty", "vc_type_of_val", "val_of_closed_ty", "TPrimC",
   "TConC", "TInt", "TBool", "convert_val_to_int", "convert_val_to_bool"]

/-- A constant of the library that an equation may have: one of `equationConstants`, or a projection
    (`projectionName`). -/
def EquationConstant (x : Ident) : Prop := x ∈ equationConstants ∨ ∃ i n, x = projectionName i n

/-- The term `t` has no free identifiers but `names` and constants of the library
    (`EquationConstant`). -/
def Over (names : List Ident) (t : Term) : Prop := ∀ x ∈ t.free, x ∈ names ∨ EquationConstant x

section

variable {names : List Ident}

/-- An identifier is `Over` the names it is among. -/
private theorem over_ident {x : Ident} (h : x ∈ names) : Over names (.ident x) := by
  intro y hy
  exact .inl (Term.mem_free_ident.1 hy ▸ h)

/-- A `list` is `Over` what its items are. -/
private theorem over_list {ts : List Term} (h : ∀ t ∈ ts, Over names t) :
    Over names (.list ts) := by
  intro x hx
  obtain ⟨t, ht, hx⟩ := Term.mem_free_list.1 hx
  exact h t ht x hx

/-- A `call` is `Over` what its arguments are, if its head is a name or a constant. -/
private theorem over_call {head : Ident} {args : List Term}
    (hhead : head ∈ names ∨ EquationConstant head) (hargs : ∀ t ∈ args, Over names t) :
    Over names (.call head args) := by
  intro x hx
  rcases Term.mem_free_app.1 hx with hx | ⟨t, ht, hx⟩
  · exact Term.mem_free_ident.1 hx ▸ hhead
  · exact hargs t ht x hx

/-- One of `equationConstants` applied to one term is `Over` what the term is. -/
private theorem over_constant {c : Ident} {t : Term} (hc : c ∈ equationConstants)
    (ht : Over names t) : Over names (.call c [t]) :=
  over_call (.inr (.inl hc)) (List.forall_mem_singleton.2 ht)

/-- `constructValue` adds no names to a term, only the constants that box. -/
private theorem over_constructValue {t : Term} (ht : Over names t) (ty : SourceTy) :
    Over names (constructValue t ty) := by
  cases ty with
  | int | bool => exact over_constant (by decide) ht
  | var | ctor => exact ht

/-- `destructValue` adds no names to a term, only the constants that unbox. -/
private theorem over_destructValue {t : Term} (ht : Over names t) (ty : SourceTy) :
    Over names (destructValue t ty) := by
  cases ty with
  | int | bool => exact over_constant (by decide) ht
  | var | ctor => exact ht

/-- `projectAlong` adds no names to a term, only projections. -/
private theorem over_projectAlong {t : Term} (ht : Over names t) (path : List Step) :
    Over names (projectAlong path t) := by
  induction path generalizing t with
  | nil => exact ht
  | cons step path ih =>
    exact ih (over_call (.inr (.inr ⟨step.index, step.arity, rfl⟩))
      (List.forall_mem_singleton.2 ht))

/-- What `recover?` finds for a type parameter is built from the values. -/
private theorem over_recover? (hmap : "A" ∈ names) {args : List (SourceTy × Term)}
    (hargs : ∀ arg ∈ args, Over names arg.2) {tv : String} {t : Term}
    (h : recover? tv ctx.valueMap args = some t) : Over names t := by
  obtain ⟨⟨ty, v⟩, hmem, hfound⟩ := List.exists_of_findSome?_eq_some h
  obtain ⟨path, _, rfl⟩ := Option.map_eq_some_iff.1 hfound
  refine over_projectAlong (over_call (.inr (.inl (by decide))) ?_) path
  exact List.forall_mem_cons.2 ⟨over_ident hmap, List.forall_mem_singleton.2 (hargs _ hmem)⟩

/-- `closedType` of a type is built from what `σ` has for its type variables. -/
private theorem over_closedType {σ : Table String Term}
    (hσ : ∀ v u, σ.get? v = some u → Over names u) {ty : SourceTy} {t : Term}
    (h : closedType σ ty = .ok t) : Over names t := by
  have hconstant {x : Ident} (hx : x ∈ equationConstants) : Over names (.ident x) := by
    intro y hy
    exact .inr (.inl (Term.mem_free_ident.1 hy ▸ hx))
  induction ty using SourceTy.induct generalizing t with
  | bool | int =>
    obtain rfl := Except.ok.inj h
    exact over_constant (by decide) (hconstant (by decide))
  | var name =>
    rw [closedType, typeTerm] at h
    cases hu : σ.get? name with
    | none =>
      rw [hu] at h
      cases h
    | some u =>
      rw [hu] at h
      obtain rfl := Except.ok.inj h
      exact hσ name u hu
  | ctor name args ih =>
    rw [closedType, typeTerm] at h
    obtain ⟨ts, hts, h⟩ := bind_eq_ok_iff.1 h
    obtain rfl := Except.ok.inj h
    rw [typeTerms_eq_mapM] at hts
    -- The name of the constructor is a text, so only the arguments have free identifiers.
    refine over_call (.inr (.inl (by decide)))
      (List.forall_mem_cons.2 ⟨?_, List.forall_mem_singleton.2 ?_⟩)
    · exact fun x hx => absurd hx Term.mem_free_lit
    · refine over_list fun t ht => ?_
      obtain ⟨arg, harg, ht⟩ := exists_of_mem_of_mapM_eq_ok hts ht
      exact ih arg harg ht

end

namespace Function

variable (f : Function)

/-! ## What is bound -/

/-- The names of the definition of `f` in the order in which they are asked for (`requests`). -/
def handed : List Ident :=
  f.definitionNames.function :: f.definitionNames.values ++
    f.definitionNames.types.filterMap TypeArg.name?

/-- The parameters of the definition are `A` and the names that are `handed` out. -/
private theorem mem_params_iff {x : Ident} :
    x ∈ f.definitionNames.params ↔ x = "A" ∨ x ∈ f.handed := by
  simp only [DefinitionNames.params, handed, List.cons_append, List.nil_append, List.mem_cons,
    List.mem_append]
  exact or_congr_right (or_congr_right or_comm)

/-- What names are asked for in the definition of `f`, up to the one for the result. -/
def requests : List (Slot × String) :=
  (.function, f.name) :: f.paramRequests ++ givenRequests f.definitionArgs 0 f.typeParams

/-- The names that are `handed` out are the answers to `requests`. -/
private theorem handed_eq : f.handed = (({} : NameSupply Slot).names f.requests).1 :=
  f.definitionNames_eq

/-- With the name of the result, they are the answers to one request more. -/
private theorem handed_append_result :
    f.handed ++ [f.definitionNames.result] =
      (({} : NameSupply Slot).names (f.requests ++ [(.result, "res")])).1 := by
  have hsupply : (typeArgs f.definitionArgs
      ((({} : NameSupply Slot).name .function f.name).2.names f.paramRequests).2 0 f.typeParams).2 =
        (({} : NameSupply Slot).names f.requests).2 := by
    -- The supply that the result is named from is the one after all `requests`.
    rw [requests, NameSupply.names_append, NameSupply.names_cons, ← typeArgs_names]
  have hresult : f.definitionNames.result =
      ((({} : NameSupply Slot).names f.requests).2.name .result "res").1 :=
    congrArg (fun s : NameSupply Slot => (s.name .result "res").1) hsupply
  rw [NameSupply.names_append, hresult, handed_eq]
  rfl

/-- The name `result` of `definitionNames` is none of its `params`: it differs from `A` and from
    every name that is `handed` out. -/
theorem result_not_mem_params : f.definitionNames.result ∉ f.definitionNames.params := by
  -- The result has a key of its own, and no key gets `A`.
  have hkeys : ((f.requests ++ [(Slot.result, "res")]).map Prod.fst).Nodup := by
    rw [List.map_append, List.nodup_append']
    refine ⟨f.nodup_keys f.definitionArgs, List.nodup_singleton _, ?_⟩
    simp [requests, paramRequests, givenRequests]
  have hnodup := (NameSupply.distinct_empty "_").nodup_names hkeys
  have hreserved := (NameSupply.unreserved_empty "_").not_mem_names NameSupply.plainSpacer_default
    (f.requests ++ [(.result, "res")])
  rw [← handed_append_result] at hnodup hreserved
  rw [mem_params_iff]
  rintro (hresult | hmem)
  · exact hreserved (hresult ▸ List.mem_append_right _ List.mem_cons_self)
  · exact (List.nodup_append'.1 hnodup).2.2 hmem List.mem_cons_self

/-! ## What is free -/

/-- The values of the definition are its parameters. -/
private theorem over_definitionArgs :
    ∀ arg ∈ f.definitionArgs, Over f.definitionNames.params arg.2 := by
  intro arg harg
  obtain ⟨x, hx, heq⟩ := List.mem_map.1 (List.of_mem_zip harg).2
  rw [← heq]
  exact over_ident (List.mem_append_right _ hx)

/-- The `types` of the definition are given as parameters or recovered from the values. -/
private theorem over_types :
    ∀ arg ∈ f.definitionNames.types, Over f.definitionNames.params arg.term := by
  intro arg harg
  cases arg with
  | given name =>
    exact over_ident (List.mem_append_left _
      (List.mem_append_right _ (List.mem_filterMap.2 ⟨_, harg, rfl⟩)))
  | recovered t =>
    -- The type parameter at the same position is what it was recovered for.
    obtain ⟨i, hi, heq⟩ := List.getElem_of_mem harg
    have hsourced := f.sourced.get (f.sourced.length_eq.symm ▸ hi) hi
    rw [List.get_eq_getElem, List.get_eq_getElem, heq] at hsourced
    exact over_recover? List.mem_cons_self f.over_definitionArgs hsourced

/-- The call in the definition, `definitionCall`, is `Over` its parameters. -/
private theorem over_definitionCall : Over f.definitionNames.params f.definitionCall.term := by
  refine over_call (.inl (by simp [definitionCall, DefinitionNames.params]))
    (List.forall_mem_cons.2 ⟨over_list ?_, List.forall_mem_singleton.2 (over_list ?_)⟩)
  · simp only [definitionCall, List.forall_mem_map]
    exact fun arg harg => over_constant (by decide) (f.over_types arg harg)
  · simp only [definitionCall, boxedValues, List.forall_mem_map]
    exact fun arg harg => over_constructValue (f.over_definitionArgs arg harg) arg.1

/-- What is free on the right of the equation is a parameter or a constant of the library: it is
    `Over` the `params`. -/
theorem over_equation {retType : Term}
    (hret : closedType (Table.ofList (f.typeParams.zip (f.definitionNames.types.map TypeArg.term)))
      f.ret = .ok retType) :
    Over f.definitionNames.params (.caseOf f.definitionCall.term (f.definitionArms retType)) := by
  have hretType : Over f.definitionNames.params retType := by
    refine over_closedType (fun v u hu => ?_) hret
    obtain ⟨arg, harg, rfl⟩ := List.mem_map.1 (List.of_mem_zip (Table.mem_of_get?_ofList hu)).2
    exact f.over_types arg harg
  intro x hx
  -- The call is free of other names, and each of the two arms is, under its pattern.
  rcases Term.mem_free_caseOf.1 hx with hx | ⟨arm, harm, hx, hpattern⟩
  · exact f.over_definitionCall x hx
  · rcases List.mem_pair.1 harm with rfl | rfl
    · -- The name of the result is bound by the pattern.
      have hfound : Over [f.definitionNames.result]
          (destructValue (.ident f.definitionNames.result) f.ret) :=
        over_destructValue (over_ident List.mem_cons_self) f.ret
      refine .inr ((hfound x hx).resolve_left fun hresult => hpattern ?_)
      rw [List.mem_singleton.1 hresult]
      exact Term.mem_free_app.2 (.inr ⟨_, List.mem_cons_self, Term.mem_free_ident.2 rfl⟩)
    · refine over_destructValue (over_call (.inr (.inl (by decide))) ?_) f.ret x hx
      exact List.forall_mem_cons.2 ⟨over_ident List.mem_cons_self,
        List.forall_mem_singleton.2 hretType⟩

/-! ## When a constant is bound -/

/-- The names that are given in the source of `f`, in the order in which names are asked for
    them. -/
def chosenNames : List String := f.name :: f.params.map Prod.fst ++ f.explicitParams

/-- The legal forms (`NameSupply.stem`) of `chosenNames`, which the names of the definition start
    from. -/
def stems : List String := f.chosenNames.map (NameSupply.stem "_")

/-- The `requests` prefer the `chosenNames`. -/
private theorem map_snd_requests : f.requests.map Prod.snd = f.chosenNames := by
  have hparams : f.paramRequests.map Prod.snd = f.params.map Prod.fst := by
    conv_rhs => rw [← List.zipIdx_map_fst 0 f.params, List.map_map]
    rw [paramRequests, List.map_map]
    rfl
  -- Names are asked for the type parameters that are not recovered.
  have hgiven : (givenRequests f.definitionArgs 0 f.typeParams).map Prod.snd =
      f.explicitParams := by
    have hexplicit (tv : String) : (recover? tv ctx.valueMap f.definitionArgs).isNone =
        !f.isImplicit tv := by
      rw [isImplicit_eq, Option.not_isSome]
    conv_rhs => rw [explicitParams, ← List.zipIdx_map_fst 0 f.typeParams, List.filter_map]
    simp only [givenRequests, List.map_map, hexplicit]
    rfl
  rw [requests, List.map_append, List.map_cons, hparams, hgiven]
  rfl

/-- The names that are `handed` out are reached from `stems`, one after the other. -/
theorem mem_handed_iff {n : Ident} :
    n ∈ f.handed ↔ ∃ k stem, f.stems[k]? = some stem ∧
      NameSupply.Reached (f.handed.take k) "_" stem n := by
  have hkeys : (f.requests.map Prod.fst).Nodup := f.nodup_keys f.definitionArgs
  have hnames :=
    NameSupply.mem_names_iff (s := ({} : NameSupply Slot)) (n := n) hkeys fun _ _ => rfl
  -- No names are held at the start.
  have hlive : ({} : NameSupply Slot).live = [] := rfl
  simp only [hlive, ← handed_eq, List.not_mem_nil, false_or, List.nil_append] at hnames
  -- `stems` are the legal forms of what is requested.
  have hstems : f.stems = f.requests.map fun r => NameSupply.stem "_" r.2 := by
    rw [stems, ← map_snd_requests, List.map_map]
    rfl
  refine hnames.trans (exists_congr fun k => ?_)
  rw [hstems, List.getElem?_map]
  constructor
  · rintro ⟨r, hr, hreached⟩
    exact ⟨_, Option.map_eq_some_iff.2 ⟨r, hr, rfl⟩, hreached⟩
  · rintro ⟨stem, hstem, hreached⟩
    obtain ⟨r, hr, rfl⟩ := Option.map_eq_some_iff.1 hstem
    exact ⟨r, hr, hreached⟩

/-- None of `equationConstants` ends in a digit, so it is `handed` out exactly if it is one of
    `stems`. -/
private theorem constant_mem_handed_iff {c : Ident} (hc : c ∈ equationConstants) :
    c ∈ f.handed ↔ c ∈ f.stems := by
  have hletter : (c.toList.getLast?.any Char.isDigit) = false := by
    revert c
    decide
  have hreached (live : List String) (stem : String) : NameSupply.Reached live "_" stem c ↔
      c = stem := by
    refine or_iff_left ?_
    -- A numbered variant ends in a digit.
    rintro ⟨-, k, rfl, -⟩
    rw [numbered_ends_with_digit] at hletter
    cases hletter
  rw [mem_handed_iff, List.mem_iff_getElem?]
  simp only [hreached, exists_eq_right']

/-- The last part of a `projectionName` is a number, so numbering leads to it if enough names are
    `handed` out before that differ from it in this part only. -/
private theorem projection_mem_handed_iff (i n : Nat) :
    projectionName i n ∈ f.handed ↔ projectionName i n ∈ f.stems ∨
      ∃ k, f.stems[k]? = some ("vc_inv_" ++ toString i) ∧
        "vc_inv_" ++ toString i ∈ f.handed.take k ∧
        ∀ m < n, projectionName i m ∈ f.handed.take k := by
  rw [mem_handed_iff]
  constructor
  · rintro ⟨k, stem, hstem, rfl | ⟨hheld, j, heq, hbelow⟩⟩
    · exact .inl (List.mem_of_getElem? hstem)
    · obtain ⟨rfl, rfl⟩ := numbered_inj heq
      exact .inr ⟨k, hstem, hheld, hbelow⟩
  · rintro (hstem | ⟨k, hstem, hheld, hbelow⟩)
    · obtain ⟨k, hk⟩ := List.getElem?_of_mem hstem
      exact ⟨k, _, hk, .inl rfl⟩
    · exact ⟨k, _, hstem, .inr ⟨hheld, n, rfl, hbelow⟩⟩

end Function

/-! ## Equations -/

/-- The equation of a counterpart binds names that are all different, and what else is free on its
    right is a constant of the library.  A constant is bound too if it is one of `f.stems`, the
    legal forms of names that are given in the source, and only then, except that projections are
    also reached by numbering. -/
theorem equation_binders {functions : List Function} {phase : FunctionPhase}
    (hphase : functionPhase functions = .ok phase) {i : Nat} {f : Function}
    (hf : functions[i]? = some f) :
    ∃ function types values result call found missing,
      phase.definitions[i]? = some (.function f.vcName none
        [{ lhs := (["A", function] ++ types ++ values).map .ident
           rhs := .caseOf call [(someOf (.ident result), found), (noneOf, missing)] }]) ∧
      (["A", function] ++ types ++ values).Nodup ∧ result ∉ ["A", function] ++ types ++ values ∧
      (∀ x ∈ (Term.caseOf call [(someOf (.ident result), found), (noneOf, missing)]).free,
        x ∈ ["A", function] ++ types ++ values ∨ x ∈ equationConstants ∨
          ∃ j n, x = projectionName j n) ∧
      (∀ c ∈ equationConstants, c ∈ function :: values ++ types ↔ c ∈ f.stems) ∧
      ∀ j n, projectionName j n ∈ function :: values ++ types ↔ projectionName j n ∈ f.stems ∨
        ∃ k, f.stems[k]? = some ("vc_inv_" ++ toString j) ∧
          "vc_inv_" ++ toString j ∈ (function :: values ++ types).take k ∧
          ∀ m < n, projectionName j m ∈ (function :: values ++ types).take k := by
  obtain ⟨decl, hdecl, hvc⟩ := getElem?_of_mapM_eq_ok (functionPhase_eq_ok hphase).1 hf
  obtain ⟨retType, hret, rfl⟩ := Function.exists_retType_of_vcFunction hvc
  exact ⟨f.definitionNames.function, f.definitionNames.types.filterMap TypeArg.name?,
    f.definitionNames.values, f.definitionNames.result, f.definitionCall.term, _, _, hdecl,
    f.nodup_params, f.result_not_mem_params, f.over_equation hret,
    fun _ hc => f.constant_mem_handed_iff hc, f.projection_mem_handed_iff⟩

/-- The counterpart of `pick` boxes a value and recovers a type, and binds neither of the constants
    for that. -/
theorem equation_binders_pick :
    ∃ (phase : FunctionPhase) (function result : Ident) (types values : List Ident)
      (call found missing : Term),
      functionPhase [pick] = .ok phase ∧
      phase.definitions[0]? = some (.function "vc_fun_pick" none
        [{ lhs := (["A", function] ++ types ++ values).map .ident
           rhs := .caseOf call [(someOf (.ident result), found), (noneOf, missing)] }]) ∧
      (["A", function] ++ types ++ values).Nodup ∧ result ∉ ["A", function] ++ types ++ values ∧
      "IntV" ∉ function :: values ++ types ∧ projectionName 0 1 ∉ function :: values ++ types := by
  obtain ⟨function, types, values, result, call, found, missing, hdef, hnodup, hresult, -,
    hconstants, hprojections⟩ :=
    equation_binders (show functionPhase [pick] = .ok _ from rfl) (i := 0) rfl
  refine
    ⟨_, function, result, types, values, call, found, missing, rfl, hdef, hnodup, hresult, ?_, ?_⟩
  · exact mt (hconstants "IntV" (by decide)).1 (by decide)
  · refine mt (hprojections 0 1).1 ?_
    -- The projection is neither one of the `stems` nor numbered from one.
    rintro (hstem | ⟨k, hstem, -⟩)
    · exact absurd hstem (by decide)
    · exact absurd (List.mem_of_getElem? hstem) (by decide)

/-- A function with a parameter that is named after `IntV`, the constant that boxes its value. -/
def boxNamed : Function := ⟨"f", [], [("IntV", .int)], .int⟩

/-- A function with a parameter and a type parameter that have its own name.  Numbering leads to
    `vc_inv_0_1`, the name of the projection that recovers the other type parameter. -/
def projectionNamed : Function :=
  ⟨"vc_inv_0", ["t", "vc_inv_0"], [("vc_inv_0", .ctor "List" [.var "t"])], .int⟩

/-- A parameter of an equation may stand for the constant that boxes its value (`boxNamed`), or for
    a projection (`projectionNamed`). -/
theorem equation_captures_constant :
    (∃ phase arms, functionPhase [boxNamed] = .ok phase ∧
      phase.definitions = [.function "vc_fun_f" none
        [{ lhs := [.ident "A", .ident "f", .ident "IntV"]
           rhs := .caseOf (.call "f" [.list [], .list [.call "IntV" [.ident "IntV"]]]) arms }]]) ∧
    ∃ phase arms, functionPhase [projectionNamed] = .ok phase ∧
      phase.definitions = [.function "vc_fun_vc_inv_0" none
        [{ lhs := [.ident "A", .ident "vc_inv_0", .ident "vc_inv_0_1", .ident "vc_inv_0_0"]
           rhs := .caseOf (.call "vc_inv_0"
             [.list [
                closedToTy (.call "vc_inv_0_1" [vcTypeOfVal (.ident "A") (.ident "vc_inv_0_0")]),
                closedToTy (.ident "vc_inv_0_1")],
              .list [.ident "vc_inv_0_0"]]) arms }]] :=
  ⟨⟨_, _, rfl, rfl⟩, _, _, rfl, rfl⟩

end Warrant
