import Warrant.Assembly.Functions
import Warrant.Proofs.Assoc
import Warrant.Proofs.Outcomes

/-!
# Which types have terms

The term for a type exists if every type variable in the type has a term.  So a variable can be
declared if its type has no type variables (`Variable.Closed`), and a function can be declared and
proved to agree with its counterpart if the type variables in its parameter and return types are
among its type parameters (`Function.Scoped`).
-/

namespace Warrant

/-! ## Type variables of a type -/

namespace SourceTy

section

variable {motive : SourceTy → Prop} (bool : motive .bool) (int : motive .int)
  (var : ∀ name, motive (.var name))
  (ctor : ∀ name args, (∀ t ∈ args, motive t) → motive (.ctor name args))

include bool int var ctor

/-- Induction on types, with a hypothesis for every argument of a `SourceTy.ctor`. -/
@[elab_as_elim]
theorem induct (t : SourceTy) : motive t :=
  @SourceTy.rec motive (fun ts => ∀ t ∈ ts, motive t) bool int var ctor
    (fun _ h => absurd h List.not_mem_nil) (fun _ _ h hs => List.forall_mem_cons.2 ⟨h, hs⟩) t

end

/-- `pathAmong?` finds a path to a type variable if some argument mentions it. -/
private theorem pathAmong?_isSome_iff (v : String) (arity index : Nat) (args : List SourceTy) :
    (pathAmong? v arity index args).isSome ↔ ∃ t ∈ args, t.mentions v = true := by
  induction args generalizing index with
  | nil => simp [pathAmong?]
  | cons t ts ih =>
    rw [pathAmong?]
    cases hpath : t.pathTo? v with
    | some path =>
      have ht : t.mentions v = true := by rw [mentions, hpath]; rfl
      exact iff_of_true rfl ⟨t, List.mem_cons_self, ht⟩
    | none =>
      -- The first argument does not mention the variable, so only the others count.
      have ht : ¬t.mentions v = true := by rw [mentions, hpath]; exact Bool.false_ne_true
      rw [ih (index + 1)]
      simp [ht]

/-- `SourceTy.bool` has no type variables. -/
@[simp] theorem mentions_bool (v : String) : bool.mentions v = false := rfl

/-- `SourceTy.int` has no type variables. -/
@[simp] theorem mentions_int (v : String) : int.mentions v = false := rfl

/-- `SourceTy.var` is the one type variable that it mentions. -/
@[simp] theorem mentions_var (name v : String) : (var name).mentions v = true ↔ name = v := by
  by_cases h : name = v <;> simp [mentions, pathTo?, h]

/-- `SourceTy.ctor` mentions what its arguments mention. -/
@[simp] theorem mentions_ctor (name v : String) (args : List SourceTy) :
    (ctor name args).mentions v = true ↔ ∃ t ∈ args, t.mentions v = true := by
  rw [mentions, pathTo?, pathAmong?_isSome_iff]

end SourceTy

/-- The type `ty` of a variable has no type variables. -/
def Variable.Closed (v : Variable) : Prop := ∀ x, v.ty.mentions x = false

/-! ## Terms for types -/

namespace Semantics

/-- `typeTerms` is `typeTerm` for each type. -/
theorem typeTerms_eq_mapM (form : TypeForm) (tyvar : String → Option Term) (ts : List SourceTy) :
    typeTerms form tyvar ts = ts.mapM (typeTerm form tyvar) := by
  induction ts with
  | nil => rfl
  | cons t ts ih => rw [typeTerms, ih, List.mapM_cons]

/-- `typeTerm` succeeds exactly if every type variable in the type has a term. -/
theorem typeTerm_succeeds_iff (form : TypeForm) (tyvar : String → Option Term) (t : SourceTy) :
    Succeeds (typeTerm form tyvar t) ↔ ∀ v, t.mentions v = true → (tyvar v).isSome := by
  induction t using SourceTy.induct with
  | bool | int => exact iff_of_true ⟨_, rfl⟩ fun v hv => nomatch hv
  | var name =>
    rw [typeTerm]
    simp only [SourceTy.mentions_var, forall_eq']
    cases tyvar name with
    | some t => exact iff_of_true (succeeds_ok t) rfl
    | none => exact iff_of_false (not_succeeds_error _) Bool.false_ne_true
  | ctor name args ih =>
    -- A constructor needs the terms of its arguments, so what any of them mentions.
    have hargs : Succeeds (typeTerms form tyvar args) ↔
        ∀ t ∈ args, ∀ v, t.mentions v = true → (tyvar v).isSome := by
      rw [typeTerms_eq_mapM, succeeds_mapM_iff]
      exact forall₂_congr ih
    rw [typeTerm]
    refine succeeds_bind_pure_iff.trans (hargs.trans ?_)
    simp only [SourceTy.mentions_ctor]
    exact ⟨fun h v ⟨t, ht, hv⟩ => h t ht v hv, fun h t ht v hv => h v ⟨t, ht, hv⟩⟩

/-- `variableDecl` succeeds exactly if the type of the variable is `Closed`. -/
theorem variableDecl_succeeds_iff (v : Variable) : Succeeds (variableDecl v) ↔ v.Closed := by
  rw [variableDecl, openType, typeTerm_succeeds_iff]
  simp [Variable.Closed]

end Semantics

/-! ## Functions -/

/-- The type variables in the types of a function are among its `typeParams`. -/
def Function.Scoped (f : Function) : Prop :=
  ∀ x, (∃ q ∈ f.params, q.2.mentions x = true) ∨ f.ret.mentions x = true → x ∈ f.typeParams

namespace Semantics

/-- The types of a `Scoped` function have terms if its `typeParams` do. -/
private theorem typeTerm_succeeds_of_scoped {f : Function} (h : f.Scoped) {form : TypeForm}
    {tyvar : String → Option Term} (htyvar : ∀ x ∈ f.typeParams, (tyvar x).isSome) :
    (∀ t ∈ f.params.map Prod.snd, Succeeds (typeTerm form tyvar t)) ∧
      Succeeds (typeTerm form tyvar f.ret) := by
  constructor
  · intro t ht
    obtain ⟨q, hq, rfl⟩ := List.mem_map.1 ht
    exact (typeTerm_succeeds_iff form tyvar q.2).2 fun x hx => htyvar x (h x (.inl ⟨q, hq, hx⟩))
  · exact (typeTerm_succeeds_iff form tyvar f.ret).2 fun x hx => htyvar x (h x (.inr hx))

/-- `functionDecl` succeeds exactly if the function is `Scoped`. -/
theorem functionDecl_succeeds_iff (f : Function) : Succeeds (functionDecl f) ↔ f.Scoped := by
  -- A type variable is declared by its position among the type parameters.
  have htyvar (x : String) :
      ((f.typeParams.idxOf? x).map fun i => Term.call "TVar" [.nat i]).isSome ↔
        x ∈ f.typeParams := by
    rw [Option.isSome_map]
    exact List.isSome_idxOf?
  refine (succeeds_bind_iff_and fun _ _ => succeeds_bind_pure_iff).trans ?_
  rw [typeTerms_eq_mapM, succeeds_mapM_iff]
  constructor
  · rintro ⟨hargs, hret⟩ x (⟨q, hq, hx⟩ | hx)
    · exact (htyvar x).1 ((typeTerm_succeeds_iff _ _ _).1 (hargs q.2 (List.mem_map_of_mem hq)) x hx)
    · exact (htyvar x).1 ((typeTerm_succeeds_iff _ _ _).1 hret x hx)
  · intro h
    exact typeTerm_succeeds_of_scoped h fun x hx => (htyvar x).2 hx

end Semantics

open Semantics

/-- `typeArgs` has one argument for each type parameter, recovered or a binder. -/
private theorem length_typeArgs (args : List (SourceTy × Term)) (s : NameSupply Slot) (index : Nat)
    (tvs : List String) : (typeArgs args s index tvs).1.length = tvs.length := by
  induction tvs generalizing s index with
  | nil => rfl
  | cons tv tvs ih =>
    rw [typeArgs]
    cases recover? tv ctx.valueMap args with
    | some t => exact congrArg (· + 1) (ih s (index + 1))
    | none => exact congrArg (· + 1) (ih _ (index + 1))

/-- `NameSupply.names` gives one name for each request. -/
theorem NameSupply.length_names {κ : Type} [DecidableEq κ] (s : NameSupply κ)
    (requests : List (κ × String)) : (s.names requests).1.length = requests.length := by
  induction requests generalizing s with
  | nil => rfl
  | cons r requests ih => exact congrArg (· + 1) (ih _)

/-- `vcFunction` succeeds for a `Scoped` function. -/
private theorem vcFunction_succeeds {f : Function} (h : f.Scoped) : Succeeds (vcFunction f) := by
  unfold vcFunction
  -- Only the return type can fail, and every type parameter has a closed type.
  refine succeeds_bind_pure_iff.2 (typeTerm_succeeds_of_scoped h fun x hx => ?_).2
  rw [Table.get?_ofList_isSome, List.map_fst_zip]
  · exact hx
  · exact Nat.le_of_eq (by rw [List.length_map, length_typeArgs])

/-- `correspondence` succeeds for a `Scoped` function. -/
private theorem correspondence_succeeds {f : Function} (h : f.Scoped) :
    Succeeds (correspondence f) := by
  -- As many names are taken for the type parameters as there are.
  have htyvar : ∀ x ∈ f.typeParams, (f.correspondenceNames.tyvar f x).isSome := by
    intro x hx
    rw [CorrespondenceNames.tyvar, Option.isSome_map, lookup_isSome_iff_mem, List.map_fst_zip]
    · exact hx
    · exact Nat.le_of_eq (by simp [Function.correspondenceNames, NameSupply.length_names])
  have hargs : Succeeds (f.correspondenceNames.argAssumptions f) := by
    refine succeeds_mapM_iff.2 fun arg harg => succeeds_bind_pure_iff.2 ?_
    have hty : arg.1.1 ∈ f.params.map Prod.snd :=
      (List.of_mem_zip (List.fst_mem_of_mem_zipIdx (List.mem_filter.1 harg).1)).1
    exact (typeTerm_succeeds_of_scoped h htyvar).1 arg.1.1 hty
  refine (succeeds_bind_iff_and fun _ _ => succeeds_bind_pure_iff).2 ?_
  exact ⟨(functionDecl_succeeds_iff f).2 h, hargs⟩

/-- What `functionPhase` gives: the `vcFunction` and the `correspondence` of each function. -/
theorem functionPhase_eq_ok {functions : List Function} {phase : FunctionPhase}
    (h : functionPhase functions = .ok phase) :
    functions.mapM vcFunction = .ok phase.definitions ∧
      functions.mapM correspondence = .ok phase.correspondences := by
  obtain ⟨definitions, hdefinitions, h⟩ := bind_eq_ok_iff.1 h
  obtain ⟨correspondences, hcorrespondences, h⟩ := bind_eq_ok_iff.1 h
  obtain rfl := Except.ok.inj h
  exact ⟨hdefinitions, hcorrespondences⟩

/-- `functionPhase` succeeds if all functions are `Scoped`. -/
theorem functionPhase_succeeds {functions : List Function} (h : ∀ f ∈ functions, f.Scoped) :
    Succeeds (functionPhase functions) := by
  refine (succeeds_bind_iff_and fun _ _ => succeeds_bind_pure_iff).2 ?_
  rw [succeeds_mapM_iff, succeeds_mapM_iff]
  exact ⟨fun f hf => vcFunction_succeeds (h f hf), fun f hf => correspondence_succeeds (h f hf)⟩

end Warrant
