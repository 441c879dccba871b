import Warrant.Proofs.Counterparts

/-!
# Reading a type parameter off the first argument that mentions it

The term that recovers a type parameter starts with the closed type of an argument and projects from
it, one argument of a constructor at a time.  `evaluate` carries such terms out and gets stuck at a
projection from anything but a constructor with as many arguments as the projection is for.

* `SourceTy.OccursAt`: the places where a type variable occurs.
* `SourceTy.pathTo?_first`: the path to a type variable leads to the first of these places.
* `evaluate_projection`: when a projection can be carried out.
* `recovered_exact`: which type parameters are recovered, from where, and what the terms evaluate
  to.
-/

namespace Warrant

open Semantics

/-! ## Occurrences of a type variable -/

namespace SourceTy

/-- The type variable `v` occurs in a type at the end of some steps. -/
inductive OccursAt (v : String) : SourceTy → List Step → Prop
  | var : OccursAt v (.var v) []
  | ctor (name : String) {args : List SourceTy} {i : Nat} {t : SourceTy} {path : List Step}
      (hi : args[i]? = some t) (ht : OccursAt v t path) :
      OccursAt v (.ctor name args) (⟨args.length, i⟩ :: path)

/-- `path` is `other`, or goes to an argument further left where they part. -/
def ComesFirst (path other : List Step) : Prop :=
  path = other ∨ List.Lex (· < ·) (path.map Step.index) (other.map Step.index)

variable {v : String}

/-- `pathTo?` a type variable leads to an occurrence. -/
private theorem occursAt_of_pathTo? {t : SourceTy} {path : List Step}
    (h : t.pathTo? v = some path) : t.OccursAt v path := by
  induction t using SourceTy.induct generalizing path with
  | bool | int => cases h
  | var name =>
    rw [pathTo?] at h
    by_cases hname : name = v
    · rw [if_pos hname] at h
      obtain rfl := Option.some.inj h
      rw [hname]
      exact .var
    · rw [if_neg hname] at h
      cases h
  | ctor name args ih =>
    obtain ⟨k, t, rest, hk, hrest, rfl⟩ := pathTo?_ctor h
    exact .ctor name hk (ih t (List.mem_of_getElem? hk) hrest)

/-- `pathAmong?` goes to the first argument that mentions the variable. -/
private theorem pathAmong?_of_getElem? (arity index : Nat) {i : Nat} {args : List SourceTy}
    {t : SourceTy} {path : List Step} (hi : args[i]? = some t) (ht : t.pathTo? v = some path) :
    ∃ k rest, pathAmong? v arity index args = some (⟨arity, index + k⟩ :: rest) ∧
      (k < i ∨ k = i ∧ rest = path) := by
  induction args generalizing index i with
  | nil => cases hi
  | cons first args ih =>
    rw [pathAmong?]
    cases hfirst : first.pathTo? v with
    | some rest =>
      -- The first argument mentions the variable, and no position is before 0.
      refine ⟨0, rest, rfl, ?_⟩
      cases i with
      | zero =>
        obtain rfl := Option.some.inj hi
        exact .inr ⟨rfl, Option.some.inj (hfirst.symm.trans ht)⟩
      | succ i => exact .inl (Nat.zero_lt_succ i)
    | none =>
      cases i with
      | zero =>
        obtain rfl := Option.some.inj hi
        cases hfirst.symm.trans ht
      | succ i =>
        -- It does not, and the search goes on with positions that are one greater.
        obtain ⟨k, rest, hpath, hk⟩ := ih (index + 1) hi
        refine ⟨k + 1, rest, ?_, ?_⟩
        · show pathAmong? v arity (index + 1) args = _
          rw [hpath, Nat.add_right_comm, Nat.add_assoc]
        · rcases hk with hlt | ⟨rfl, hrest⟩
          · exact .inl (Nat.succ_lt_succ hlt)
          · exact .inr ⟨rfl, hrest⟩

/-- If a type variable occurs, `pathTo?` finds a path to it, and no occurrence comes before the one
    at its end. -/
theorem pathTo?_first {t : SourceTy} {other : List Step} (h : t.OccursAt v other) :
    ∃ path, t.pathTo? v = some path ∧ ComesFirst path other := by
  induction h with
  | var => exact ⟨[], if_pos rfl, .inl rfl⟩
  | @ctor name args i t other hi _ ih =>
    obtain ⟨path, hpath, hfirst⟩ := ih
    obtain ⟨k, rest, hrest, hk⟩ := pathAmong?_of_getElem? args.length 0 hi hpath
    rw [Nat.zero_add] at hrest
    refine ⟨_, hrest, ?_⟩
    -- In an earlier argument the path comes first; in the same one, by induction.
    rcases hk with hlt | ⟨rfl, rfl⟩
    · exact .inr (.rel hlt)
    · rcases hfirst with rfl | hlex
      · exact .inl rfl
      · exact .inr (.cons hlex)

/-- `mentions` holds of a type variable that `OccursAt` some place. -/
private theorem mentions_iff_occursAt (t : SourceTy) :
    t.mentions v = true ↔ ∃ path, t.OccursAt v path := by
  rw [mentions, Option.isSome_iff_exists]
  constructor
  · rintro ⟨path, h⟩
    exact ⟨path, occursAt_of_pathTo? h⟩
  · rintro ⟨other, h⟩
    obtain ⟨path, hpath, _⟩ := pathTo?_first h
    exact ⟨path, hpath⟩

end SourceTy

/-! ## Carrying out projections -/

/-- The arguments of a constructor under the names of the projections to them. -/
def projections (ts : List Term) : List (Ident × Term) :=
  ts.zipIdx.map fun p => (projectionName p.2 ts.length, p.1)

/-- `projections` has each argument under the `projectionName` of its index. -/
private theorem mem_projections_iff {name : Ident} {c : Term} {ts : List Term} :
    (name, c) ∈ projections ts ↔ ∃ i, name = projectionName i ts.length ∧ ts[i]? = some c := by
  constructor
  · intro h
    obtain ⟨⟨c', i⟩, hmem, heq⟩ := List.mem_map.1 h
    obtain ⟨rfl, rfl⟩ := Prod.mk.inj heq
    exact ⟨i, rfl, List.mem_zipIdx_iff_getElem?.1 hmem⟩
  · rintro ⟨i, rfl, hi⟩
    exact List.mem_map.2 ⟨(c, i), List.mem_zipIdx_iff_getElem?.2 hi, rfl⟩

/-- `projections` of one constructor have different names. -/
private theorem nodup_projections (ts : List Term) : ((projections ts).map Prod.fst).Nodup := by
  have hkeys : (projections ts).map Prod.fst =
      (List.range' 0 ts.length).map fun i => projectionName i ts.length := by
    rw [projections, List.map_map, ← List.zipIdx_map_snd, List.map_map]
    rfl
  rw [hkeys]
  exact List.Nodup.map (fun _ _ h => (projectionName_injective h).1) List.nodup_range'

/-- The argument of a closed type to which the projection called `name` leads.  Primitive types have
    none, and a constructor has none for projections of another number of arguments. -/
def closedArgument? (name : Ident) : Term → Option Term
  | .app (.ident "TConC") [.lit (.str _), .list ts] => (projections ts).lookup name
  | _ => none

/-- The closed type that a term stands for, if `typeOf` gives the closed types of values.  There is
    none if a projection meets something that it is not for. -/
def evaluate (a : Term) (typeOf : Term → Term) : Term → Option Term
  | .app (.ident f) [t] => (evaluate a typeOf t).bind (closedArgument? f)
  | .app (.ident f) [b, x] => if f = "vc_type_of_val" ∧ b = a then some (typeOf x) else none
  | _ => none
termination_by structural t => t

/-- `closedArgument?` finds something only in an applied `TConC`. -/
private theorem closedArgument?_eq_some {name : Ident} {t c : Term}
    (h : closedArgument? name t = some c) :
    ∃ con ts, t = .call "TConC" [.str con, .list ts] ∧ (projections ts).lookup name = some c := by
  unfold closedArgument? at h
  split at h
  · next con ts => exact ⟨con, ts, rfl, h⟩
  · cases h

section

variable {a : Term} {typeOf : Term → Term}

/-- `evaluate` takes the closed type of a value from `typeOf`. -/
private theorem evaluate_vcTypeOfVal (x : Term) :
    evaluate a typeOf (vcTypeOfVal a x) = some (typeOf x) := if_pos ⟨rfl, rfl⟩

/-- `evaluate` carries out a `projection` exactly on a constructor with the number of arguments that
    it is for, and gives the argument at its index. -/
theorem evaluate_projection {i n : Nat} {t c : Term} :
    evaluate a typeOf (projection i n t) = some c ↔
      ∃ con ts, evaluate a typeOf t = some (.call "TConC" [.str con, .list ts]) ∧ ts.length = n ∧
        ts[i]? = some c := by
  show (evaluate a typeOf t).bind (closedArgument? (projectionName i n)) = some c ↔ _
  rw [Option.bind_eq_some_iff]
  constructor
  · rintro ⟨d, hd, hc⟩
    obtain ⟨con, ts, rfl, hlookup⟩ := closedArgument?_eq_some hc
    obtain ⟨j, hname, hj⟩ := mem_projections_iff.1 (mem_of_lookup_eq_some hlookup)
    obtain ⟨rfl, rfl⟩ := projectionName_injective hname
    exact ⟨con, ts, hd, rfl, hj⟩
  · rintro ⟨con, ts, ht, rfl, hi⟩
    exact ⟨_, ht, lookup_of_mem (nodup_projections ts) (mem_projections_iff.2 ⟨i, rfl, hi⟩)⟩

/-- `projectAlong` the steps to a type variable leads from the closed form of a type to what the
    variable stands for, whatever has that closed form. -/
private theorem evaluate_projectAlong {σ : Table String Term} {v : String} {ty : SourceTy}
    {path : List Step} {root t : Term} (hoccurs : ty.OccursAt v path) (ht : closedType σ ty = .ok t)
    (hroot : evaluate a typeOf root = some t) :
    evaluate a typeOf (projectAlong path root) = σ.get? v := by
  induction hoccurs generalizing root t with
  | var =>
    show evaluate a typeOf root = σ.get? v
    rw [closedType, typeTerm] at ht
    cases hu : σ.get? v with
    | none =>
      rw [hu] at ht
      cases ht
    | some u =>
      rw [hu] at ht
      rw [hroot, Except.ok.inj ht]
  | @ctor name args i arg path hi _ ih =>
    rw [closedType, typeTerm] at ht
    obtain ⟨ts, hts, ht⟩ := bind_eq_ok_iff.1 ht
    obtain rfl := Except.ok.inj ht
    rw [typeTerms_eq_mapM] at hts
    -- The outermost step is the innermost projection, so it is carried out first.
    obtain ⟨c, hc, harg⟩ := getElem?_of_mapM_eq_ok hts hi
    exact ih harg (evaluate_projection.2 ⟨name, ts, hroot, length_of_mapM_eq_ok hts, hc⟩)

end

/-! ## Recovery -/

/-- `recover?` finds a type parameter that `OccursAt` some place of an argument type. -/
private theorem recover?_isSome_iff_occursAt (tv : String) (a : Term)
    (args : List (SourceTy × Term)) :
    (recover? tv a args).isSome ↔ ∃ arg ∈ args, ∃ path, arg.1.OccursAt tv path := by
  rw [recover?, List.findSome?_isSome_iff]
  refine exists_congr fun arg => and_congr_right fun _ => ?_
  rw [Option.isSome_map, ← SourceTy.mentions_iff_occursAt]
  rfl

/-- `recover?` finds a type parameter exactly if it occurs in the type of some argument.  The term
    follows, in the first argument whose type mentions it, the steps to its first occurrence there.
    If the closed type of that argument's value is the closed form of its type, every projection
    meets a constructor that it is for, and the term evaluates to what the type parameter stands
    for. -/
theorem recovered_exact (tv : String) (a : Term) (args : List (SourceTy × Term))
    {σ : Table String Term} (hσ : ∀ arg ∈ args, Succeeds (closedType σ arg.1)) :
    ((recover? tv a args).isSome ↔ ∃ arg ∈ args, ∃ path, arg.1.OccursAt tv path) ∧
    ∀ r, recover? tv a args = some r →
      ∃ earlier ty x later path u,
        args = earlier ++ (ty, x) :: later ∧ (∀ arg ∈ earlier, ∀ path, ¬arg.1.OccursAt tv path) ∧
        ty.OccursAt tv path ∧ (∀ other, ty.OccursAt tv other → SourceTy.ComesFirst path other) ∧
        r = projectAlong path (vcTypeOfVal a x) ∧ σ.get? tv = some u ∧
        ∀ typeOf : Term → Term, closedType σ ty = .ok (typeOf x) →
          evaluate a typeOf r = some u := by
  refine ⟨recover?_isSome_iff_occursAt tv a args, fun r hr => ?_⟩
  obtain ⟨earlier, ⟨ty, x⟩, later, rfl, hfound, hearlier⟩ := List.findSome?_eq_some_iff.1 hr
  obtain ⟨path, hpath, rfl⟩ := Option.map_eq_some_iff.1 hfound
  have hoccurs := SourceTy.occursAt_of_pathTo? hpath
  have heval (typeOf : Term → Term) (htype : closedType σ ty = .ok (typeOf x)) :=
    evaluate_projectAlong hoccurs htype (evaluate_vcTypeOfVal (a := a) x)
  -- The type of the argument has a closed form, so the type parameter stands for something.
  obtain ⟨t, ht⟩ := hσ (ty, x) (by simp)
  obtain ⟨u, hu⟩ : ∃ u, σ.get? tv = some u :=
    Option.isSome_iff_exists.1 ((typeTerm_succeeds_iff _ _ ty).1 ⟨t, ht⟩ tv
      ((ty.mentions_iff_occursAt).2 ⟨path, hoccurs⟩))
  refine ⟨earlier, ty, x, later, path, u, rfl, fun arg harg other hother => ?_, hoccurs,
    fun other hother => ?_, rfl, hu, fun typeOf htype => (heval typeOf htype).trans hu⟩
  · -- An argument before it would have been taken.
    obtain ⟨path', hpath', _⟩ := SourceTy.pathTo?_first hother
    have hnone := hearlier arg harg
    simp [hpath'] at hnone
  · obtain ⟨path', hpath', hfirst⟩ := SourceTy.pathTo?_first hother
    obtain rfl := Option.some.inj (hpath.symm.trans hpath')
    exact hfirst

/-- Arguments of which the second and the third mention the type variable `t`, the second twice. -/
def nestedArgs : List (SourceTy × Term) :=
  [(.int, .ident "n"),
    (.ctor "Map" [.int, .ctor "Pair" [.ctor "Box" [.var "t"], .var "t"]], .ident "m"),
    (.var "t", .ident "y")]

/-- The closed types of the values of `nestedArgs`, where `t` is the type of truth values. -/
def nestedTypeOf : Term → Term
  | .ident "n" => primType .closed "TInt"
  | .ident "m" =>
    .call "TConC" [.str "Map", .list [primType .closed "TInt", .call "TConC" [.str "Pair",
      .list [.call "TConC" [.str "Box", .list [primType .closed "TBool"]],
        primType .closed "TBool"]]]]
  | _ => primType .closed "TBool"

/-- `recover?` gets the type variable of `nestedArgs` through three constructors from the second
    argument. -/
theorem recovered_exact_nested :
    recover? "t" (.ident "A") nestedArgs =
        some (projection 0 1 (projection 0 2
          (projection 1 2 (vcTypeOfVal (.ident "A") (.ident "m"))))) ∧
      evaluate (.ident "A") nestedTypeOf
        (projection 0 1 (projection 0 2 (projection 1 2 (vcTypeOfVal (.ident "A") (.ident "m"))))) =
        some (primType .closed "TBool") := by
  have htypes : ∀ arg ∈ nestedArgs,
      closedType (Table.ofList [("t", primType .closed "TBool")]) arg.1 =
        .ok (nestedTypeOf arg.2) :=
    List.forall_mem_cons.2 ⟨rfl, List.forall_mem_cons.2 ⟨rfl, List.forall_mem_singleton.2 rfl⟩⟩
  obtain ⟨earlier, ty, x, later, path, u, hargs, -, -, -, -, hu, heval⟩ :=
    (recovered_exact "t" (.ident "A") nestedArgs fun arg harg => ⟨_, htypes arg harg⟩).2 _ rfl
  obtain rfl : primType .closed "TBool" = u := Option.some.inj hu
  exact ⟨rfl, heval nestedTypeOf (htypes (ty, x) (by simp [hargs]))⟩

end Warrant
