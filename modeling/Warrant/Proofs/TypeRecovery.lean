import Warrant.Proofs.Denotation
import Warrant.Proofs.TypeTerms

/-!
# Recovered type parameters

The counterpart of a function reads a type parameter off the closed type of an argument: it follows
the path to the first occurrence of the parameter, one projection for each step.  What it gets is
the closed form of what the parameter stands for, provided that the constants of the library behave
as `Library` says.

* `pathTo?_ctor`: the path to a type variable goes through an argument of the constructor.
* `Library.project_openType`: following the path to a type variable in the closed form of a type.
* `Library.denote_recovered`: the term that recovers a type parameter denotes what the parameter
  stands for.
-/

namespace Warrant

/-! ## Paths -/

namespace SourceTy

/-- A path from `pathAmong?` starts with an argument and goes on inside of it. -/
private theorem pathAmong?_eq_some {v : String} {arity index : Nat} {args : List SourceTy}
    {path : List Step} (h : pathAmong? v arity index args = some path) :
    ∃ k t rest, args[k]? = some t ∧ t.pathTo? v = some rest ∧
      path = ⟨arity, index + k⟩ :: rest := by
  induction args generalizing index with
  | nil => cases h
  | cons t ts ih =>
    rw [pathAmong?] at h
    cases hpath : t.pathTo? v with
    | some rest =>
      rw [hpath] at h
      exact ⟨0, t, rest, rfl, hpath, (Option.some.inj h).symm⟩
    | none =>
      rw [hpath] at h
      -- The first argument has no path, and the positions of the others are one further on.
      obtain ⟨k, t', rest, hk, hrest, rfl⟩ := ih h
      exact ⟨k + 1, t', rest, hk, hrest, by rw [Nat.add_right_comm]; rfl⟩

/-- `pathTo?` a type variable in a `SourceTy.ctor` starts with an argument and goes on inside of
    it. -/
theorem pathTo?_ctor {v name : String} {args : List SourceTy} {path : List Step}
    (h : (ctor name args).pathTo? v = some path) :
    ∃ k t rest, args[k]? = some t ∧ t.pathTo? v = some rest ∧ path = ⟨args.length, k⟩ :: rest := by
  rw [pathTo?] at h
  obtain ⟨k, t, rest, hk, hrest, rfl⟩ := pathAmong?_eq_some h
  exact ⟨k, t, rest, hk, hrest, by rw [Nat.zero_add]⟩

end SourceTy

namespace Semantics

variable {D : Type} {I : Interpretation D} {e inner : Env D} {Holds : D → Prop}

/-! ## The library -/

/-- What is assumed of the constants of the library: which denotations hold, that an equation which
    holds is one, that closed types survive the way to their closed form and back, what the closed
    type of a value is, and how the closed forms of applied constructors are built and taken
    apart. -/
structure Library (I : Interpretation D) (e : Env D) (Holds : D → Prop) : Prop where
  eq_of_holds : ∀ d d', Holds (I.nary .eq [d, d']) → d = d'
  closedToTy_tyToClosed : ∀ d, Holds (I.app (e "closed") [d]) →
    I.app (e "closed_to_ty") [I.app (e "ty_to_closed") [d]] = d
  vcTypeOfVal_eq : ∀ d, I.app (e "vc_type_of_val") [e "A", d] =
    I.app (e "ty_to_closed") [I.app (e "type_of_val") [e "A", d]]
  tyToClosed_con : ∀ d ds, I.app (e "ty_to_closed") [I.app (e "TCon") [d, I.list ds]] =
    I.app (e "TConC") [d, I.list (ds.map fun d => I.app (e "ty_to_closed") [d])]
  projection_con : ∀ d ds (i : Nat) c, ds[i]? = some c →
    I.app (e (projectionName i ds.length)) [I.app (e "TConC") [d, I.list ds]] = c

/-- The closed form of what `t` denotes, with `ty_to_closed` of the library. -/
def closedForm (I : Interpretation D) (e : Env D) (t : Term) : D :=
  I.app (e "ty_to_closed") [t.denote I e]

/-- Follow `path` into the closed type `d`, one projection for each step. -/
def project (I : Interpretation D) (e : Env D) (path : List Step) (d : D) : D :=
  path.foldl (fun d step => I.app (e (projectionName step.index step.arity)) [d]) d

/-- A constant that the call in a counterpart (`vcFunction`) uses. -/
inductive CallConstant : Ident → Prop where
  | intV : CallConstant "IntV"
  | boolV : CallConstant "BoolV"
  | closedToTy : CallConstant "closed_to_ty"
  | vcTypeOfVal : CallConstant "vc_type_of_val"
  | projection (index arity : Nat) : CallConstant (projectionName index arity)

/-- `projectAlong` a path denotes what `project` gives. -/
private theorem denote_projectAlong (I : Interpretation D) (e : Env D) (path : List Step)
    (t : Term) : (projectAlong path t).denote I e = project I e path (t.denote I e) := by
  induction path generalizing t with
  | nil => rfl
  | cons step path ih => exact ih (projection step.index step.arity t)

/-- `project` depends on the projections only. -/
private theorem project_congr (h : ∀ x, CallConstant x → inner x = e x) (path : List Step) (d : D) :
    project I inner path d = project I e path d := by
  induction path generalizing d with
  | nil => rfl
  | cons step path ih =>
    simp only [project, List.foldl_cons, h _ (.projection step.index step.arity)]
    exact ih _

/-- A projection undoes the constructor in the `closedForm` of an applied one. -/
private theorem Library.projection_closedForm (L : Library I e Holds) (name : String)
    {ts : List Term} {k : Nat} {t : Term} (hk : ts[k]? = some t) :
    I.app (e (projectionName k ts.length))
      [closedForm I e (.call TypeForm.opened.con [.str name, .list ts])] =
      closedForm I e t := by
  have hcon := L.tyToClosed_con (I.lit (.str name)) (ts.map (Term.denote I e))
  have hproj := L.projection_con (I.lit (.str name))
    ((ts.map (Term.denote I e)).map fun d => I.app (e "ty_to_closed") [d]) k (closedForm I e t)
    (by simp [closedForm, hk])
  rw [List.length_map, List.length_map, ← hcon] at hproj
  have hterm : (Term.call TypeForm.opened.con [.str name, .list ts]).denote I e =
      I.app (e "TCon") [I.lit (.str name), I.list (ts.map (Term.denote I e))] := by
    rw [← Term.denoteList_eq_map]
    rfl
  rw [closedForm, hterm]
  exact hproj

/-- In the `closedForm` of a type, the path to a type variable leads to the closed form of what the
    variable stands for. -/
theorem Library.project_openType (L : Library I e Holds) {tyvar : String → Option Term}
    {ty : SourceTy} {t : Term} {v : String} {path : List Step} (ht : openType tyvar ty = .ok t)
    (hpath : ty.pathTo? v = some path) :
    ∃ u, tyvar v = some u ∧ project I e path (closedForm I e t) = closedForm I e u := by
  induction ty using SourceTy.induct generalizing t path with
  | bool | int => cases hpath
  | var name =>
    rw [SourceTy.pathTo?] at hpath
    by_cases hname : name = v
    · rw [if_pos hname] at hpath
      obtain rfl := Option.some.inj hpath
      rw [openType, typeTerm, hname] at ht
      cases hu : tyvar v with
      | some u =>
        rw [hu] at ht
        obtain rfl := Except.ok.inj ht
        exact ⟨u, rfl, rfl⟩
      | none =>
        rw [hu] at ht
        cases ht
    · rw [if_neg hname] at hpath
      cases hpath
  | ctor name args ih =>
    obtain ⟨k, arg, rest, hk, hrest, rfl⟩ := SourceTy.pathTo?_ctor hpath
    rw [openType, typeTerm] at ht
    obtain ⟨ts, hts, ht⟩ := bind_eq_ok_iff.1 ht
    obtain rfl := Except.ok.inj ht
    rw [typeTerms_eq_mapM] at hts
    -- The first step of the path leads to the term for the argument.
    obtain ⟨t, hkt, ht⟩ := getElem?_of_mapM_eq_ok hts hk
    obtain ⟨u, hu, hproject⟩ := ih arg (List.mem_of_getElem? hk) ht hrest
    have hfirst := L.projection_closedForm name hkt
    rw [length_of_mapM_eq_ok hts] at hfirst
    refine ⟨u, hu, ?_⟩
    rw [project, List.foldl_cons, hfirst]
    exact hproject

/-! ## Recovery -/

/-- `recover?` finds a type parameter exactly if some argument type mentions it. -/
theorem recover?_isSome_iff (tv : String) (a : Term) {tys : List SourceTy} {values : List Term}
    (hlen : tys.length = values.length) :
    (recover? tv a (tys.zip values)).isSome ↔ ∃ ty ∈ tys, ty.mentions tv = true := by
  rw [recover?, List.findSome?_isSome_iff]
  constructor
  · rintro ⟨⟨ty, v⟩, hmem, h⟩
    rw [Option.isSome_map] at h
    exact ⟨ty, (List.of_mem_zip hmem).1, h⟩
  · rintro ⟨ty, hty, h⟩
    obtain ⟨⟨ty, v⟩, hmem, rfl⟩ :=
      List.mem_map.1 ((List.map_fst_zip (Nat.le_of_eq hlen)).symm ▸ hty)
    exact ⟨(ty, v), hmem, by rwa [Option.isSome_map]⟩

/-- A type in which `pathTo?` finds something is not primitive. -/
private theorem not_isPrimitive_of_pathTo? {ty : SourceTy} {v : String} {path : List Step}
    (h : ty.pathTo? v = some path) : ty.isPrimitive = false := by
  cases ty with
  | bool | int => cases h
  | var | ctor => rfl

/-- The term from `recover?` denotes the `closedForm` of what the type parameter stands for, if the
    values have the types. -/
theorem Library.denote_recovered (L : Library I e Holds)
    (hconst : ∀ x, CallConstant x → inner x = e x) (hmap : inner "A" = e "A") {tys : List SourceTy}
    {values values' : List Term} {tyvar : String → Option Term}
    (hvalues : values'.map (Term.denote I inner) = values.map (Term.denote I e))
    (htypes : ∀ ty v, (ty, v) ∈ tys.zip values → ty.isPrimitive = false →
      ∃ t, openType tyvar ty = .ok t ∧ (typeOfVal ctx.valueMap v).denote I e = t.denote I e)
    {tv : String} {r : Term} (hr : recover? tv ctx.valueMap (tys.zip values') = some r) :
    ∃ u, tyvar tv = some u ∧ r.denote I inner = closedForm I e u := by
  obtain ⟨_, ⟨ty, v'⟩, _, hsplit, hfound, _⟩ := List.findSome?_eq_some_iff.1 hr
  obtain ⟨path, hpath, rfl⟩ := Option.map_eq_some_iff.1 hfound
  have hmem : (ty, v') ∈ tys.zip values' := by simp [hsplit]
  -- The value at the same position has the type too.
  obtain ⟨i, hi⟩ := List.getElem?_of_mem hmem
  obtain ⟨hty, hv'⟩ := List.getElem?_zip_eq_some.1 hi
  have hdenote := congrArg (·[i]?) hvalues
  simp only [List.getElem?_map, hv', Option.map_some] at hdenote
  obtain ⟨v, hv, hdenote⟩ := Option.map_eq_some_iff.1 hdenote.symm
  have hmem : (ty, v) ∈ tys.zip values :=
    List.mem_of_getElem? (List.getElem?_zip_eq_some.2 ⟨hty, hv⟩)
  obtain ⟨t, ht, htype⟩ := htypes ty v hmem (not_isPrimitive_of_pathTo? hpath)
  obtain ⟨u, hu, hproject⟩ := L.project_openType ht hpath
  refine ⟨u, hu, ?_⟩
  have hvalue : (vcTypeOfVal ctx.valueMap v').denote I inner = closedForm I e t := by
    show I.app (inner "vc_type_of_val") [inner "A", v'.denote I inner] = _
    rw [hconst _ .vcTypeOfVal, hmap, ← hdenote, L.vcTypeOfVal_eq]
    exact congrArg (fun d => I.app (e "ty_to_closed") [d]) htype
  rw [denote_projectAlong, project_congr hconst, hvalue, hproject]

end Semantics

end Warrant
