import Warrant.Logic.Subst

/-!
# Fresh binders

The search for a fresh binder tries a name with more and more primes and stops at the first that is
not taken (`primed_spec`).  The candidates differ in length, so it looks at no more of them than
there are taken names, and one.

* `renameBinders_cases`: each binder of a quantifier is kept and occurs free in no replacement, or
  gets a name that is unused among the replacements, the binders, the names chosen before it and the
  body.
* `nodup_renameBinders_iff`: so the new binders are pairwise distinct exactly if those that are kept
  are.
-/

namespace Warrant

/-- `name` followed by a number of primes, the candidates of `primedFrom` in the order it tries
    them. -/
def withPrimes (name : Ident) : Nat → Ident
  | 0 => name
  | k + 1 => withPrimes (name ++ "'") k

/-- `withPrimes name k` is longer than `name` by `k`. -/
private theorem length_withPrimes (name : Ident) (k : Nat) :
    (withPrimes name k).length = name.length + k := by
  induction k generalizing name with
  | zero => rfl
  | succ k ih =>
    rw [withPrimes, ih, length_append_prime]
    omega

/-- Candidates with different numbers of primes differ, as their lengths do. -/
theorem withPrimes_injective (name : Ident) {i j : Nat}
    (h : withPrimes name i = withPrimes name j) : i = j := by
  have hlen := congrArg String.length h
  rw [length_withPrimes, length_withPrimes] at hlen
  omega

/-- `primedFrom` returns the first candidate that is not taken. -/
private theorem primedFrom_spec (taken : List Ident) (name : Ident) :
    ∃ k, primedFrom taken name = withPrimes name k ∧ withPrimes name k ∉ taken ∧
      ∀ j < k, withPrimes name j ∈ taken := by
  -- By the steps of the search: the candidates from a taken name on are that name and those from
  -- the next one on.
  induction name using primedFrom.induct taken with
  | case1 name hmem ih =>
    obtain ⟨k, hres, hfree, hbelow⟩ := ih
    refine ⟨k + 1, ?_, hfree, ?_⟩
    · rw [primedFrom, if_pos hmem, hres]
      rfl
    · intro j hj
      cases j with
      | zero => exact hmem
      | succ j => exact hbelow j (by omega)
  | case2 name hfree =>
    refine ⟨0, ?_, hfree, fun j hj => absurd hj (Nat.not_lt_zero j)⟩
    rw [primedFrom, if_neg hfree]
    rfl

/-- Pairwise different candidates that are all `taken` are no more than the taken names. -/
theorem le_length_of_candidates_mem {taken : List Ident} {candidate : Nat → Ident} {k : Nat}
    (hdiffer : ∀ i j, candidate i = candidate j → i = j) (h : ∀ j < k, candidate j ∈ taken) :
    k ≤ taken.length := by
  have hnodup : ((List.range k).map candidate).Nodup := by
    rw [List.nodup_iff_pairwise_ne, List.pairwise_map]
    exact List.Pairwise.imp (fun hne heq => hne (hdiffer _ _ heq)) List.nodup_range
  have hsub : (List.range k).map candidate ⊆ taken := by
    intro c hc
    obtain ⟨j, hj, rfl⟩ := List.mem_map.1 hc
    exact h j (List.mem_range.1 hj)
  -- A list without duplicates is no longer than one that has all its members.
  have hlen := hnodup.length_le_of_subset hsub
  rwa [List.length_map, List.length_range] at hlen

/-- `primed taken name` has the least positive number of primes for which it is not taken. -/
theorem primed_spec (taken : List Ident) (name : Ident) :
    ∃ k, primed taken name = withPrimes name (k + 1) ∧ primed taken name ∉ taken ∧
      ∀ j < k, withPrimes name (j + 1) ∈ taken := by
  obtain ⟨k, hres, hfree, hbelow⟩ := primedFrom_spec taken (name ++ "'")
  refine ⟨k, hres, ?_, hbelow⟩
  rw [primed, hres]
  exact hfree

/-- A name that `renameBinders` may give a new binder: no replacement has it free, no binder of the
    quantifier has it, none of the names chosen before is it, and it is not free in the body. -/
structure Unused (rangeFree binders chosen bodyFree : List Ident) (name : Ident) : Prop where
  range : name ∉ rangeFree
  binder : name ∉ binders
  fresh : name ∉ chosen
  body : name ∉ bodyFree

section

variable {rangeFree binders bodyFree : List Ident}

/-- `Unused` is what `renameBinders` asks of `primed`, in one list of taken names. -/
theorem unused_iff_not_mem {chosen : List Ident} {name : Ident} :
    Unused rangeFree binders chosen bodyFree name ↔ name ∉ rangeFree ++ binders ++ chosen ++
      bodyFree := by
  simp only [List.mem_append, not_or]
  exact ⟨fun h => ⟨⟨⟨h.range, h.binder⟩, h.fresh⟩, h.body⟩, fun h => ⟨h.1.1.1, h.1.1.2, h.1.2, h.2⟩⟩

/-- The name that `primed` finds for a new binder is `Unused`. -/
private theorem unused_primed (chosen : List Ident) (b : Ident) :
    Unused rangeFree binders chosen bodyFree
      (primed (rangeFree ++ binders ++ chosen ++ bodyFree) b) :=
  (primed_spec _ b).elim fun _ h => unused_iff_not_mem.2 h.2.1

/-! ## Renaming the binders of a quantifier -/

/-- The first components of `renameBinders` are the binders, in their order. -/
theorem map_fst_renameBinders (chosen bs : List Ident) :
    (renameBinders rangeFree binders bodyFree chosen bs).map Prod.fst = bs := by
  induction bs generalizing chosen with
  | nil => rfl
  | cons b bs ih => rw [renameBinders, List.map_cons, ih]

/-- `renameBinders` has one pair for each binder. -/
theorem length_renameBinders (chosen bs : List Ident) :
    (renameBinders rangeFree binders bodyFree chosen bs).length = bs.length := by
  rw [← List.length_map Prod.fst, map_fst_renameBinders]

/-- A binder keeps its name if it is not in `rangeFree`; otherwise its new name is `Unused`. -/
theorem renameBinders_cases {chosen bs : List Ident} {b new : Ident}
    (h : (b, new) ∈ renameBinders rangeFree binders bodyFree chosen bs) :
    (new = b ∧ b ∉ rangeFree) ∨ (b ∈ rangeFree ∧ Unused rangeFree binders chosen bodyFree new) := by
  induction bs generalizing chosen with
  | nil => exact absurd h List.not_mem_nil
  | cons b' bs ih =>
    rw [renameBinders] at h
    rcases List.mem_cons.1 h with heq | htail
    · obtain ⟨rfl, rfl⟩ := Prod.mk.inj heq
      by_cases hb : b ∈ rangeFree
      · rw [if_pos hb]
        exact .inr ⟨hb, unused_primed chosen b⟩
      · rw [if_neg hb]
        exact .inl ⟨rfl, hb⟩
    · -- Further on more names are chosen already.
      rcases ih htail with hkept | ⟨hb, hnew⟩
      · exact .inl hkept
      · exact .inr ⟨hb, { hnew with fresh := fun hmem => hnew.fresh (List.mem_append_left _ hmem) }⟩

/-- No binder has a name after `renameBinders` that occurs free in a replacement. -/
theorem renameBinders_not_mem_rangeFree {chosen bs : List Ident} {p : Ident × Ident}
    (h : p ∈ renameBinders rangeFree binders bodyFree chosen bs) : p.2 ∉ rangeFree := by
  rcases renameBinders_cases h with ⟨heq, hb⟩ | ⟨_, hnew⟩
  · exact heq ▸ hb
  · exact hnew.range

/-- A name in `chosen` does not come again from `renameBinders`, unless a binder has it. -/
private theorem not_mem_renameBinders_of_mem_chosen {chosen bs : List Ident} {name : Ident}
    (hchosen : name ∈ chosen) (hname : name ∉ bs) :
    name ∉ (renameBinders rangeFree binders bodyFree chosen bs).map Prod.snd := by
  intro hmem
  obtain ⟨p, hp, rfl⟩ := List.mem_map.1 hmem
  rcases renameBinders_cases hp with ⟨heq, _⟩ | ⟨_, hnew⟩
  · have hbs := List.mem_map_of_mem (f := Prod.fst) hp
    rw [map_fst_renameBinders, ← heq] at hbs
    exact hname hbs
  · exact hnew.fresh hchosen

/-- The name of a binder that is not in `rangeFree` is used for that binder only. -/
private theorem mem_renameBinders_iff_of_kept {chosen bs : List Ident} {b : Ident}
    (hb : b ∈ binders) (hkept : b ∉ rangeFree) :
    b ∈ (renameBinders rangeFree binders bodyFree chosen bs).map Prod.snd ↔ b ∈ bs := by
  have hfst := @map_fst_renameBinders rangeFree binders bodyFree chosen bs
  constructor
  · intro hmem
    obtain ⟨p, hp, rfl⟩ := List.mem_map.1 hmem
    rcases renameBinders_cases hp with ⟨heq, _⟩ | ⟨_, hnew⟩
    · exact hfst ▸ heq ▸ List.mem_map_of_mem hp
    · -- A new name differs from every binder, so it is not `b`.
      exact absurd hb hnew.binder
  · intro hmem
    rw [← hfst] at hmem
    obtain ⟨p, hp, rfl⟩ := List.mem_map.1 hmem
    rcases renameBinders_cases hp with ⟨heq, _⟩ | ⟨hrange, _⟩
    · exact List.mem_map.2 ⟨p, hp, heq⟩
    · exact absurd hrange hkept

/-- The new binders are pairwise distinct exactly if those that are kept are: the others differ from
    all `binders` and from what is `chosen` before them. -/
theorem nodup_renameBinders_iff {chosen bs : List Ident} (hbs : ∀ b ∈ bs, b ∈ binders) :
    ((renameBinders rangeFree binders bodyFree chosen bs).map Prod.snd).Nodup ↔
      (bs.filter (· ∉ rangeFree)).Nodup := by
  induction bs generalizing chosen with
  | nil => rfl
  | cons b bs ih =>
    have htail : ∀ c ∈ bs, c ∈ binders := fun c hc => hbs c (List.mem_cons_of_mem b hc)
    rw [renameBinders, List.map_cons, List.nodup_cons, ih htail]
    by_cases hb : b ∈ rangeFree
    · -- A renamed binder: its name is that of no binder, so it does not come again.
      rw [List.filter_cons_of_neg (by simpa using hb), if_pos hb]
      refine and_iff_right (not_mem_renameBinders_of_mem_chosen ?_ fun hmem => ?_)
      · exact List.mem_append_right chosen List.mem_cons_self
      · exact (unused_primed chosen b).binder (htail _ hmem)
    · -- A kept binder: its name comes again exactly if it is bound again.
      rw [List.filter_cons_of_pos (by simpa using hb), List.nodup_cons, if_neg hb,
        mem_renameBinders_iff_of_kept (hbs b List.mem_cons_self) hb, List.mem_filter]
      simp [hb]

end

end Warrant
