/-! # Tables ordered by key

A `Table κ α` is a finite map kept as a list of entries with strictly ascending keys.  The order of
the entries is the order in which answers list them, and because the keys ascend strictly a table is
determined by what it returns: `Table.ext` says that two tables with the same look-ups are equal.

`get?` is the view of a table.  Each operation has one lemma about it:

* `get?_empty` `(empty : Table κ α).get? k = none`
* `get?_insert` `(t.insert k a).get? j = if k = j then some a else t.get? j`
* `get?_insertNew` an entry that is there stays, otherwise as `insert`
* `mem_keys` `k ∈ t.keys ↔ (t.get? k).isSome`
* `mem_keys_insert` `j ∈ (t.insert k a).keys ↔ j = k ∨ j ∈ t.keys` -/

namespace Warrant

/-- A finite map from `κ` to `α`, its entries in ascending order of their keys. -/
structure Table (κ : Type) (α : Type) [Ord κ] where
  entries : List (κ × α)
  ascending : entries.Pairwise fun a b => compare a.1 b.1 = .lt

namespace Table

variable {κ α : Type} [Ord κ]

/-- The table without `entries`. -/
def empty : Table κ α := ⟨[], .nil⟩

instance : EmptyCollection (Table κ α) := ⟨empty⟩
instance : Inhabited (Table κ α) := ⟨empty⟩

/-- Look `k` up in a list of entries: the first entry with that key counts. -/
def lookup (k : κ) : List (κ × α) → Option α
  | [] => none
  | (j, a) :: rest => if compare k j = .eq then some a else lookup k rest

/-- The value stored under the key `k`. -/
def get? (t : Table κ α) (k : κ) : Option α := lookup k t.entries

/-- Whether `get?` finds a value under the key `k`. -/
def contains (t : Table κ α) (k : κ) : Bool := (t.get? k).isSome

/-- The keys of the `entries`, ascending. -/
def keys (t : Table κ α) : List κ := t.entries.map Prod.fst

/-- The values of the `entries`, in the order of their keys. -/
def values (t : Table κ α) : List α := t.entries.map Prod.snd

/-- The number of `entries`. -/
def size (t : Table κ α) : Nat := t.entries.length

/-- Put the entry `(k, a)` where its key belongs in ascending entries, in place of one with an equal
    key. -/
def place (k : κ) (a : α) : List (κ × α) → List (κ × α)
  | [] => [(k, a)]
  | (j, b) :: rest =>
    match compare k j with
    | .lt => (k, a) :: (j, b) :: rest
    | .eq => (k, a) :: rest
    | .gt => (j, b) :: place k a rest

/-- `place` adds no entry but the one that it places. -/
private theorem mem_place {k : κ} {a : α} {es : List (κ × α)} {e : κ × α} (h : e ∈ place k a es) :
    e = (k, a) ∨ e ∈ es := by
  induction es with
  | nil => simpa [place] using h
  | cons e' rest ih =>
    obtain ⟨j, b⟩ := e'
    simp only [place] at h
    -- One case for each way in which the new key compares to the first one.
    split at h
    · simpa using h
    · simp only [List.mem_cons] at h ⊢
      rcases h with h | h
      · exact .inl h
      · exact .inr (.inr h)
    · simp only [List.mem_cons] at h ⊢
      rcases h with h | h
      · exact .inr (.inl h)
      · rcases ih h with h | h
        · exact .inl h
        · exact .inr (.inr h)

/-- `place` keeps ascending keys ascending. -/
private theorem pairwise_place [Std.TransOrd κ] (k : κ) (a : α) {es : List (κ × α)}
    (h : es.Pairwise fun x y => compare x.1 y.1 = .lt) :
    (place k a es).Pairwise fun x y => compare x.1 y.1 = .lt := by
  induction es with
  | nil => simp [place]
  | cons e rest ih =>
    obtain ⟨j, b⟩ := e
    rw [List.pairwise_cons] at h
    simp only [place]
    split
    · -- In front of all: the keys behind the first are greater still.
      next hlt =>
      rw [List.pairwise_cons, List.pairwise_cons]
      refine ⟨fun x hx => ?_, h⟩
      rcases List.mem_cons.1 hx with rfl | hx
      · exact hlt
      · exact Std.TransCmp.lt_trans hlt (h.1 x hx)
    · -- In place of the first entry, whose key is equal.
      next heq =>
      rw [List.pairwise_cons]
      exact ⟨fun x hx => Std.TransCmp.lt_of_eq_of_lt heq (h.1 x hx), h.2⟩
    · -- Further on: what stands there is the new entry or one that was there before.
      next hgt =>
      rw [List.pairwise_cons]
      refine ⟨fun x hx => ?_, ih h.2⟩
      rcases mem_place hx with rfl | hx
      · exact Std.OrientedCmp.lt_of_gt hgt
      · exact h.1 x hx

/-- Store `a` under `k`, in place of the value that was there. -/
def insert [Std.TransOrd κ] (t : Table κ α) (k : κ) (a : α) : Table κ α :=
  ⟨place k a t.entries, pairwise_place k a t.ascending⟩

/-- Store `a` under `k` if `k` has no value yet. -/
def insertNew [Std.TransOrd κ] (t : Table κ α) (k : κ) (a : α) : Table κ α :=
  if t.contains k then t else t.insert k a

/-- The table of a list of entries.  Of several entries with one key the last counts, as with
    `insert`. -/
def ofList [Std.TransOrd κ] (es : List (κ × α)) : Table κ α :=
  es.foldl (fun t e => t.insert e.1 e.2) empty

/-! ## What the operations do to the view -/

/-- `empty` has no value under any key. -/
@[simp] theorem get?_empty (k : κ) : (empty : Table κ α).get? k = none := rfl

/-- After `place k a` a look-up of `k` finds `a`, and all other look-ups find what they did. -/
private theorem lookup_place [Std.LawfulEqOrd κ] [DecidableEq κ] (k j : κ) (a : α)
    (es : List (κ × α)) (h : es.Pairwise fun x y => compare x.1 y.1 = .lt) :
    lookup j (place k a es) = if k = j then some a else lookup j es := by
  induction es with
  | nil =>
    by_cases hkj : k = j
    · subst hkj; simp [place, lookup]
    · simp [place, lookup, hkj, Std.LawfulEqCmp.compare_eq_iff_eq, Ne.symm hkj]
  | cons e rest ih =>
    obtain ⟨i, b⟩ := e
    rw [List.pairwise_cons] at h
    simp only [place]
    split
    · next hlt =>
      by_cases hkj : k = j
      · subst hkj; simp [lookup]
      · simp [lookup, hkj, Std.LawfulEqCmp.compare_eq_iff_eq, Ne.symm hkj]
    · next heq =>
      have hki : k = i := Std.LawfulEqCmp.compare_eq_iff_eq.1 heq
      subst hki
      by_cases hkj : k = j
      · subst hkj; simp [lookup]
      · simp [lookup, hkj, Std.LawfulEqCmp.compare_eq_iff_eq, Ne.symm hkj]
    · -- The first entry stays in front, and its key is not `k`.
      next hgt =>
      have hki : k ≠ i := by
        rintro rfl
        simp at hgt
      by_cases hij : j = i
      · subst hij
        simp [lookup, hki]
      · have hne : ¬compare j i = .eq := fun hc => hij (Std.LawfulEqCmp.compare_eq_iff_eq.1 hc)
        simp only [lookup, hne, if_false, ih h.2]

/-- After `insert k a` there is `a` under `k`, and the other values are as before. -/
theorem get?_insert [Std.TransOrd κ] [Std.LawfulEqOrd κ] [DecidableEq κ]
    (t : Table κ α) (k j : κ) (a : α) :
    (t.insert k a).get? j = if k = j then some a else t.get? j :=
  lookup_place k j a t.entries t.ascending

/-- After `insert k a` the keys with a value are `k` and those that had one. -/
theorem contains_insert [Std.TransOrd κ] [Std.LawfulEqOrd κ] [DecidableEq κ]
    (t : Table κ α) (k j : κ) (a : α) :
    (t.insert k a).contains j = (decide (k = j) || t.contains j) := by
  unfold contains
  rw [get?_insert]
  by_cases h : k = j <;> simp [h]

/-- `insertNew k a` is `insert k a` where `k` had no value, and changes nothing otherwise. -/
theorem get?_insertNew [Std.TransOrd κ] [Std.LawfulEqOrd κ] [DecidableEq κ]
    (t : Table κ α) (k j : κ) (a : α) :
    (t.insertNew k a).get? j = if k = j ∧ t.get? k = none then some a else t.get? j := by
  unfold insertNew contains
  cases hk : t.get? k with
  | some b => simp
  | none => simp [get?_insert]

variable [Std.LawfulEqOrd κ]

/-- `lookup` finds something exactly for the keys of the entries. -/
theorem lookup_isSome_iff (k : κ) (es : List (κ × α)) :
    (lookup k es).isSome ↔ k ∈ es.map Prod.fst := by
  induction es with
  | nil => simp [lookup]
  | cons e rest ih =>
    obtain ⟨j, b⟩ := e
    simp only [lookup, List.map_cons, List.mem_cons]
    by_cases h : compare k j = .eq
    · simp [Std.LawfulEqCmp.compare_eq_iff_eq.1 h]
    · have hne : k ≠ j := fun hc => h (Std.LawfulEqCmp.compare_eq_iff_eq.2 hc)
      simp [h, hne, ih]

/-- `keys` are the keys that `get?` finds a value under. -/
theorem mem_keys (t : Table κ α) (k : κ) : k ∈ t.keys ↔ (t.get? k).isSome :=
  (lookup_isSome_iff k t.entries).symm

/-- After `insert k a` the keys are `k` and those from before. -/
theorem mem_keys_insert [Std.TransOrd κ] [DecidableEq κ] {t : Table κ α} {k j : κ} {a : α} :
    j ∈ (t.insert k a).keys ↔ j = k ∨ j ∈ t.keys := by
  rw [mem_keys, get?_insert, mem_keys]
  by_cases h : k = j
  · simp [h]
  · simp [h, Ne.symm h]

/-- An entry of ascending entries is what `lookup` finds for its key. -/
theorem lookup_eq_some_iff {es : List (κ × α)} (h : es.Pairwise fun x y => compare x.1 y.1 = .lt)
    (k : κ) (a : α) : lookup k es = some a ↔ (k, a) ∈ es := by
  induction es with
  | nil => simp [lookup]
  | cons e rest ih =>
    obtain ⟨j, b⟩ := e
    rw [List.pairwise_cons] at h
    simp only [lookup, List.mem_cons, Prod.mk.injEq]
    by_cases hkj : compare k j = .eq
    · obtain rfl := Std.LawfulEqCmp.compare_eq_iff_eq.1 hkj
      -- No later entry has the same key, as the keys ascend strictly.
      have hout : (k, a) ∉ rest := fun hm => by
        have := h.1 _ hm
        simp at this
      simp [hout, eq_comm]
    · have hne : k ≠ j := fun hc => hkj (Std.LawfulEqCmp.compare_eq_iff_eq.2 hc)
      simp [hkj, hne, ih h.2]

/-- The entries of a table are what `get?` finds. -/
theorem get?_eq_some_iff (t : Table κ α) (k : κ) (a : α) :
    t.get? k = some a ↔ (k, a) ∈ t.entries :=
  lookup_eq_some_iff t.ascending k a

/-- Ascending entries are determined by which entries they are. -/
private theorem entries_eq_of_mem_iff [Std.OrientedOrd κ] {es fs : List (κ × α)}
    (hes : es.Pairwise fun x y => compare x.1 y.1 = .lt)
    (hfs : fs.Pairwise fun x y => compare x.1 y.1 = .lt)
    (h : ∀ e, e ∈ es ↔ e ∈ fs) : es = fs := by
  induction es generalizing fs with
  | nil =>
    cases fs with
    | nil => rfl
    | cons f fs => exact absurd ((h f).2 (by simp)) (by simp)
  | cons e es ih =>
    cases fs with
    | nil => exact absurd ((h e).1 (by simp)) (by simp)
    | cons f fs =>
      rw [List.pairwise_cons] at hes hfs
      -- The least entries of both lists agree: each occurs in the other list.
      have hef : e = f := by
        rcases List.mem_cons.1 ((h e).1 (by simp)) with he | he
        · exact he
        · rcases List.mem_cons.1 ((h f).2 (by simp)) with hf | hf
          · exact hf.symm
          · have h1 := hfs.1 e he
            have h2 := hes.1 f hf
            rw [Std.OrientedCmp.gt_of_lt h1] at h2
            cases h2
      subst hef
      congr 1
      apply ih hes.2 hfs.2
      intro x
      constructor <;> intro hx
      · -- The least entry is none of the later ones, so membership further on agrees too.
        rcases List.mem_cons.1 ((h x).1 (by simp [hx])) with rfl | hx'
        · exact absurd (hes.1 x hx) (by simp)
        · exact hx'
      · rcases List.mem_cons.1 ((h x).2 (by simp [hx])) with rfl | hx'
        · exact absurd (hfs.1 x hx) (by simp)
        · exact hx'

/-- Two tables with the same `get?` are equal. -/
theorem ext [Std.OrientedOrd κ] {s t : Table κ α} (h : ∀ k, s.get? k = t.get? k) : s = t := by
  have hes : s.entries = t.entries :=
    entries_eq_of_mem_iff s.ascending t.ascending fun ⟨k, a⟩ => by
      rw [← get?_eq_some_iff, ← get?_eq_some_iff, h]
  cases s; cases t; cases hes; rfl

end Table

instance {κ α : Type} [Ord κ] [DecidableEq κ] [DecidableEq α] : DecidableEq (Table κ α) :=
  fun s t =>
    if h : s.entries = t.entries then .isTrue (by cases s; cases t; cases h; rfl)
    else .isFalse fun hst => h (hst ▸ rfl)

end Warrant
