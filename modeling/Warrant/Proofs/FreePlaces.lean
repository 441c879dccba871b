import Mathlib.Tactic.Choose
import Warrant.Proofs.Terms

/-!
# Free identifiers by their places

A place in a term is a path: the numbers of the parts that lead down to it.  The parts of a term are
the subterms in which identifiers are looked for; patterns, labels and types are none.  An
identifier is free at a place if it stands there and no part on the path binds it.

* `FreeAt`: the places where an identifier is free.
* `exists_locates`: the free occurrences of a term, from left to right, are those at its free places
  in lexicographic order.
* `eq_free_iff`: the free identifiers of a term are the only list that has each identifier with a
  free place once, in the order of first places.
-/

namespace Warrant.Term

/-! ## Places -/

/-- The parts of a term from left to right, each with the identifiers that are bound there. -/
def parts : Term → List (List Ident × Term)
  | .app head args => ([], head) :: args.map fun a => ([], a)
  | .list items | .set items | .tuple items | .nary _ items => items.map fun a => ([], a)
  | .record fields => fields.map fun f => ([], f.2)
  | .ident _ | .lit _ => []
  | .quant _ bound _ body => [(bound, body)]
  | .caseOf scrutinee arms => ([], scrutinee) :: arms.map fun a => (a.1.occurrences [], a.2)
  | .typed term _ => [([], term)]

/-- The identifier `x` is free at the end of a path through `parts`. -/
inductive FreeAt (x : Ident) : Term → List Nat → Prop
  | here : FreeAt x (.ident x) []
  | part {t u : Term} {i : Nat} {bound : List Ident} {path : List Nat}
      (hpart : t.parts[i]? = some (bound, u)) (hx : x ∉ bound) (hu : FreeAt x u path) :
      FreeAt x t (i :: path)

/-- The subterm at the end of a path, if the path leads down through `parts`. -/
def subterm? : List Nat → Term → Option Term
  | [], t => some t
  | i :: path, t => (t.parts[i]?).bind fun p => subterm? path p.2

/-- From left to right, some free place of `x` comes before all free places of `y`. -/
def MetBefore (t : Term) (x y : Ident) : Prop :=
  ∃ path, t.FreeAt x path ∧ ∀ other, t.FreeAt y other → List.Lex (· < ·) path other

variable {x y : Ident}

/-- An identifier is `FreeAt` its own place. -/
private theorem freeAt_ident_iff {name : Ident} {path : List Nat} :
    (ident name).FreeAt x path ↔ path = [] ∧ x = name := by
  constructor
  · intro h
    cases h with
    | here => exact ⟨rfl, rfl⟩
    | part hpart => cases hpart
  · rintro ⟨rfl, rfl⟩
    exact .here

/-- In a term that is no `Term.ident`, free places lie in parts. -/
private theorem freeAt_iff_of_ne {t : Term} (ht : ∀ name, t ≠ ident name) {path : List Nat} :
    t.FreeAt x path ↔
      ∃ i p rest, path = i :: rest ∧ t.parts[i]? = some p ∧ x ∉ p.1 ∧ p.2.FreeAt x rest := by
  constructor
  · intro h
    cases h with
    | here => exact absurd rfl (ht x)
    | part hpart hx hu => exact ⟨_, _, _, rfl, hpart, hx, hu⟩
  · rintro ⟨i, p, rest, rfl, hpart, hx, hu⟩
    exact .part hpart hx hu

/-- Two identifiers are not `MetBefore` each other. -/
private theorem MetBefore.asymm {t : Term} (h : t.MetBefore x y) : ¬t.MetBefore y x := by
  obtain ⟨path, hpath, hfirst⟩ := h
  rintro ⟨other, hother, hfirst'⟩
  exact List.lex_asymm Nat.lt_asymm (hfirst other hother) (hfirst' path hpath)

/-! ## Occurrences at places -/

/-- Induction on terms by their `parts`. -/
@[elab_as_elim]
theorem induct_parts {motive : Term → Prop} (ident : ∀ name, motive (.ident name))
    (inner : ∀ t, (∀ name, t ≠ .ident name) → (∀ p ∈ t.parts, motive p.2) → motive t) (t : Term) :
    motive t := by
  induction t using induct with
  | ident name => exact ident name
  | app head args ihHead ihArgs =>
    exact inner _ (by simp) (List.forall_mem_cons.2 ⟨ihHead, List.forall_mem_map.2 ihArgs⟩)
  | list items ih | set items ih | tuple items ih | nary op items ih =>
    exact inner _ (by simp) (List.forall_mem_map.2 ih)
  | record fields ih => exact inner _ (by simp) (List.forall_mem_map.2 ih)
  | quant kind bound types body ih => exact inner _ (by simp) (List.forall_mem_singleton.2 ih)
  | caseOf scrutinee arms ihScrutinee ihArms =>
    exact inner _ (by simp) (List.forall_mem_cons.2 ⟨ihScrutinee, List.forall_mem_map.2 ihArms⟩)
  | typed term typ ih => exact inner _ (by simp) (List.forall_mem_singleton.2 ih)
  | lit value => exact inner _ (by simp) fun p hp => absurd hp List.not_mem_nil

/-- `occurrences` are those in the `parts`, each below what is bound there. -/
private theorem occurrences_eq_parts {t : Term} (ht : ∀ name, t ≠ ident name) :
    t.occurrences [] = t.parts.flatMap fun p => p.2.occurrences p.1 := by
  cases t with
  | ident name => exact absurd rfl (ht name)
  | app head args => simp [occurrences, occurrencesList_eq_flatMap, parts, List.flatMap_map]
  | list items | set items | tuple items | nary op items =>
    simp [occurrences, occurrencesList_eq_flatMap, parts, List.flatMap_map]
  | record fields => simp [occurrences, occurrencesFields_eq_flatMap, parts, List.flatMap_map]
  | quant kind bound types body => simp [occurrences, parts]
  | caseOf scrutinee arms => simp [occurrences, occurrencesArms_eq_flatMap, parts, List.flatMap_map]
  | typed term typ => simp [occurrences, parts]
  | lit value => rfl

/-- `l` has the free places of `t` from left to right, with the identifiers that stand there. -/
structure Locates (t : Term) (l : List (List Nat × Ident)) : Prop where
  idents : l.map Prod.snd = t.occurrences []
  sorted : l.Pairwise fun p q => List.Lex (· < ·) p.1 q.1
  mem : ∀ path x, (path, x) ∈ l ↔ t.FreeAt x path

/-- The free places of the `i`-th part, as places of the whole term. -/
def lift (i : Nat) (bound : List Ident) (l : List (List Nat × Ident)) : List (List Nat × Ident) :=
  (l.filter (·.2 ∉ bound)).map fun q => (i :: q.1, q.2)

/-- `lift` puts the number of the part in front, and drops what is bound there. -/
private theorem mem_lift {i : Nat} {bound : List Ident} {l : List (List Nat × Ident)}
    {path : List Nat} :
    (path, x) ∈ lift i bound l ↔ ∃ rest, path = i :: rest ∧ (rest, x) ∈ l ∧ x ∉ bound := by
  simp only [lift, List.mem_map, List.mem_filter, decide_eq_true_eq]
  constructor
  · rintro ⟨q, hq, heq⟩
    obtain ⟨rfl, rfl⟩ := Prod.mk.inj heq
    exact ⟨q.1, rfl, hq⟩
  · rintro ⟨rest, rfl, hq⟩
    exact ⟨(rest, x), hq, rfl⟩

/-- The identifiers of a `lift` are the `occurrences` below what is bound. -/
private theorem Locates.idents_lift {t : Term} {l : List (List Nat × Ident)} (h : t.Locates l)
    (i : Nat) (bound : List Ident) : (lift i bound l).map Prod.snd = t.occurrences bound := by
  rw [occurrences_eq_filter, ← h.idents, List.filter_map, lift, List.map_map]
  rfl

/-- There is a list that `Locates` the free identifiers of a term. -/
theorem exists_locates (t : Term) : ∃ l, t.Locates l := by
  induction t using induct_parts with
  | ident name =>
    refine ⟨[([], name)], rfl, List.pairwise_singleton _ _, fun path x => ?_⟩
    rw [freeAt_ident_iff, List.mem_singleton, Prod.mk.injEq]
  | inner t ht ih =>
    -- The places in each part, which together are those of the term.
    choose! places hplaces using ih
    have hpart {p : (List Ident × Term) × Nat} (hp : p ∈ t.parts.zipIdx) :
        t.parts[p.2]? = some p.1 :=
      List.mem_zipIdx_iff_getElem?.1 hp
    have hlocates {p : (List Ident × Term) × Nat} (hp : p ∈ t.parts.zipIdx) :
        p.1.2.Locates (places p.1) :=
      hplaces p.1 (List.mem_of_getElem? (hpart hp))
    refine ⟨t.parts.zipIdx.flatMap fun p => lift p.2 p.1.1 (places p.1), ?_, ?_, fun path x => ?_⟩
    · rw [List.map_flatMap, occurrences_eq_parts ht]
      conv_rhs => rw [← List.zipIdx_map_fst 0 t.parts, List.flatMap_map]
      exact List.flatMap_congr fun p hp => (hlocates hp).idents_lift p.2 p.1.1
    · -- Within a part places are sorted by what follows its number, and parts by their numbers.
      have hnumbers : t.parts.zipIdx.Pairwise fun p q => p.2 < q.2 := by
        rw [← List.pairwise_map, List.zipIdx_map_snd]
        exact List.pairwise_lt_range'
      refine List.pairwise_flatMap.2 ⟨fun p hp => ?_, hnumbers.imp fun hlt a ha b hb => ?_⟩
      · exact List.pairwise_map.2 (((hlocates hp).sorted.filter _).imp fun h => .cons h)
      · obtain ⟨rest, hrest, _⟩ := mem_lift.1 ha
        obtain ⟨rest', hrest', _⟩ := mem_lift.1 hb
        rw [hrest, hrest']
        exact .rel hlt
    · rw [freeAt_iff_of_ne ht, List.mem_flatMap]
      constructor
      · rintro ⟨p, hp, hmem⟩
        obtain ⟨rest, rfl, hrest, hx⟩ := mem_lift.1 hmem
        exact ⟨p.2, p.1, rest, rfl, hpart hp, hx, ((hlocates hp).mem rest x).1 hrest⟩
      · rintro ⟨i, p, rest, rfl, hi, hx, hfree⟩
        have hp : (p, i) ∈ t.parts.zipIdx := List.mem_zipIdx_iff_getElem?.2 hi
        exact ⟨(p, i), hp, mem_lift.2 ⟨rest, rfl, ((hlocates hp).mem rest x).2 hfree, hx⟩⟩

/-! ## The order of free identifiers -/

/-- `Term.free` has the identifiers that are `FreeAt` some place. -/
private theorem mem_free_iff_freeAt (t : Term) : x ∈ t.free ↔ ∃ path, t.FreeAt x path := by
  obtain ⟨l, hl⟩ := t.exists_locates
  rw [mem_free, ← hl.idents, List.mem_map]
  constructor
  · rintro ⟨p, hp, rfl⟩
    exact ⟨p.1, (hl.mem p.1 p.2).1 hp⟩
  · rintro ⟨path, hpath⟩
    exact ⟨(path, x), (hl.mem path x).2 hpath, rfl⟩

/-- What comes first among the `occurrences` is `MetBefore`. -/
private theorem metBefore_of_idxOf_lt {t : Term} (hx : x ∈ t.occurrences [])
    (hlt : (t.occurrences []).idxOf x < (t.occurrences []).idxOf y) : t.MetBefore x y := by
  obtain ⟨l, hl⟩ := t.exists_locates
  rw [← hl.idents] at hx hlt
  have hi := List.idxOf_lt_length_of_mem hx
  generalize hindex : (l.map Prod.snd).idxOf x = i at hlt hi
  have hat : (l.map Prod.snd)[i] = x := by
    subst hindex
    exact List.getElem_idxOf hi
  rw [List.getElem_map] at hat
  rw [List.length_map] at hi
  have hfree : t.FreeAt l[i].2 l[i].1 := (hl.mem _ _).1 (List.getElem_mem hi)
  rw [hat] at hfree
  refine ⟨l[i].1, hfree, fun other hother => ?_⟩
  -- A place of the second identifier stands in the list at its first index or after that.
  obtain ⟨j, hj, hother⟩ := List.getElem_of_mem ((hl.mem other y).2 hother)
  have hij : i < j := by
    refine Nat.lt_of_lt_of_le hlt (Nat.le_of_not_lt fun hbefore => ?_)
    have hne := List.not_of_lt_findIdx hbefore
    simp [hother] at hne
  have hsorted := List.pairwise_iff_getElem.1 hl.sorted i j hi hj hij
  rwa [hother] at hsorted

/-- `Term.free` lists identifiers as they are met. -/
private theorem pairwise_metBefore_free (t : Term) : t.free.Pairwise t.MetBefore :=
  t.records_free.order.imp_of_mem fun hx _ hlt => metBefore_of_idxOf_lt ((mem_free _ t).1 hx) hlt

/-- `Term.free` is the one list without repetitions that has exactly the identifiers with a free
    place, those that are met earlier from left to right before those that are met later. -/
theorem eq_free_iff (t : Term) (l : List Ident) :
    l = t.free ↔ l.Nodup ∧ (∀ x, x ∈ l ↔ ∃ path, t.FreeAt x path) ∧ l.Pairwise t.MetBefore := by
  constructor
  · rintro rfl
    exact ⟨t.nodup_free, fun x => t.mem_free_iff_freeAt, t.pairwise_metBefore_free⟩
  · rintro ⟨hnodup, hmem, hmet⟩
    -- A list is determined by its members and an order of them in which no two come before each
    -- other.
    have hperm : l.Perm t.free :=
      (List.perm_ext_iff_of_nodup hnodup t.nodup_free).2 fun x =>
        (hmem x).trans t.mem_free_iff_freeAt.symm
    exact hperm.eq_of_pairwise (fun x y _ _ hxy hyx => absurd hyx hxy.asymm) hmet
      t.pairwise_metBefore_free

-- What the first arm binds is free in the second.
example :
    (caseOf (.ident "s") [(.call "Some" [.ident "x"], .ident "x"), (.ident "y", .ident "x")]).free =
    ["s", "x"] := by
  decide

end Warrant.Term
