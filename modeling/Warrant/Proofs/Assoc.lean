import Warrant.Data.Table

/-!
# Association lists and tables

Which keys a list of pairs or a table has.
-/

namespace Warrant

variable {κ α : Type}

section

variable [BEq κ] [LawfulBEq κ]

/-- `List.lookup` finds a key exactly if some pair has it. -/
theorem lookup_isSome_iff_mem {pairs : List (κ × α)} {k : κ} :
    (pairs.lookup k).isSome ↔ k ∈ pairs.map Prod.fst := by
  rw [List.lookup_isSome_iff, List.mem_map]
  refine exists_congr fun p => and_congr_right fun _ => ?_
  rw [beq_iff_eq, eq_comm]

/-- `List.lookup` does not find a key exactly if no pair has it. -/
theorem lookup_eq_none_iff_not_mem {pairs : List (κ × α)} {k : κ} :
    pairs.lookup k = none ↔ k ∉ pairs.map Prod.fst := by
  rw [← lookup_isSome_iff_mem, Option.not_isSome_iff_eq_none]

/-- What `List.lookup` finds for a key is paired with it. -/
theorem mem_of_lookup_eq_some {pairs : List (κ × α)} {k : κ} {a : α} (h : pairs.lookup k = some a) :
    (k, a) ∈ pairs := by
  obtain ⟨before, after, rfl, _⟩ := List.lookup_eq_some_iff.1 h
  exact List.mem_append_right _ List.mem_cons_self

/-- Where no key occurs twice, `List.lookup` finds for a key what it is paired with. -/
theorem lookup_of_mem {pairs : List (κ × α)} (hnodup : (pairs.map Prod.fst).Nodup) {k : κ} {a : α}
    (h : (k, a) ∈ pairs) : pairs.lookup k = some a := by
  induction pairs with
  | nil => cases h
  | cons p pairs ih =>
    obtain ⟨hp, hnodup⟩ := List.nodup_cons.1 hnodup
    obtain rfl | h := List.mem_cons.1 h
    · exact List.lookup_cons_self
    · -- The first key does not occur again, so it is another one.
      have hne : (k == p.1) = false := by
        refine Bool.eq_false_iff.2 fun heq => hp ?_
        rw [← eq_of_beq heq]
        exact List.mem_map_of_mem h
      rw [List.lookup_cons, hne]
      exact ih hnodup h

end

section

variable [DecidableEq κ]

/-- `List.lookup` in a `List.zip` takes the value at the first position of the key. -/
theorem lookup_zip (names : List κ) (vals : List α) (x : κ) :
    (names.zip vals).lookup x = (names.idxOf? x).bind fun i => vals[i]? := by
  induction names generalizing vals with
  | nil => rfl
  | cons name names ih =>
    cases vals with
    | nil => cases (name :: names).idxOf? x <;> rfl
    | cons d vals =>
      rw [List.zip_cons_cons, List.lookup_cons, List.idxOf?_cons, ih]
      by_cases h : x = name
      · simp [h]
      · -- Past another name both sides go on with the tails, one position further.
        have hx : (x == name) = false := by simpa using h
        have hn : (name == x) = false := by simpa using Ne.symm h
        rw [hx, hn]
        cases names.idxOf? x <;> rfl

end

namespace Table

variable [Ord κ]

/-- What `Table.lookup` finds is the value of an entry. -/
theorem mem_of_lookup {es : List (κ × α)} {k : κ} {a : α} (h : lookup k es = some a) :
    a ∈ es.map Prod.snd := by
  induction es with
  | nil => cases h
  | cons e es ih =>
    rw [lookup] at h
    by_cases hk : compare k e.1 = .eq
    · rw [if_pos hk] at h
      simp [Option.some.inj h]
    · rw [if_neg hk] at h
      exact List.mem_cons_of_mem _ (ih h)

variable [Std.LawfulEqOrd κ]

/-- `Table.lookup` does not find a key that no entry has. -/
theorem lookup_eq_none_of_ne {es : List (κ × α)} {k : κ} (h : ∀ e ∈ es, k ≠ e.1) :
    lookup k es = none := by
  refine Option.not_isSome_iff_eq_none.1 fun hsome => ?_
  obtain ⟨e, he, heq⟩ := List.mem_map.1 ((lookup_isSome_iff k es).1 hsome)
  exact h e he heq.symm

variable [Std.TransOrd κ]

/-- A set, kept as the `keys` of a table, is determined by its members. -/
theorem eq_of_mem_keys_iff {s t : Table κ Unit} (h : ∀ k, k ∈ s.keys ↔ k ∈ t.keys) : s = t := by
  refine ext fun k => ?_
  have hk := h k
  rw [mem_keys, mem_keys] at hk
  cases hs : s.get? k <;> cases ht : t.get? k <;> simp_all

variable [DecidableEq κ]

/-- After several `Table.insert` a key has a value if it had one or is among the new keys. -/
private theorem get?_foldl_insert_isSome (t : Table κ α) (es : List (κ × α)) (k : κ) :
    ((es.foldl (fun t e => t.insert e.1 e.2) t).get? k).isSome ↔
      (t.get? k).isSome ∨ k ∈ es.map Prod.fst := by
  induction es generalizing t with
  | nil => simp
  | cons e es ih =>
    rw [List.foldl_cons, ih, get?_insert, List.map_cons, List.mem_cons]
    by_cases h : e.1 = k
    · simp [h]
    · simp [h, Ne.symm h]

/-- The keys of `Table.ofList` are those of the entries. -/
theorem get?_ofList_isSome (es : List (κ × α)) (k : κ) :
    ((ofList es).get? k).isSome ↔ k ∈ es.map Prod.fst := by
  rw [ofList, get?_foldl_insert_isSome]
  simp

/-- After several `Table.insert` a key has what it had or the value of an entry. -/
private theorem mem_of_get?_foldl_insert {t : Table κ α} {es : List (κ × α)} {k : κ} {a : α}
    (h : (es.foldl (fun t e => t.insert e.1 e.2) t).get? k = some a) :
    t.get? k = some a ∨ (k, a) ∈ es := by
  induction es generalizing t with
  | nil => exact .inl h
  | cons e es ih =>
    rcases ih h with hget | hmem
    · rw [get?_insert] at hget
      by_cases hk : e.1 = k
      · rw [if_pos hk] at hget
        exact .inr (List.mem_cons.2 (.inl (Prod.ext hk.symm (Option.some.inj hget).symm)))
      · rw [if_neg hk] at hget
        exact .inl hget
    · exact .inr (List.mem_cons_of_mem e hmem)

/-- What a key has in `Table.ofList` is the value of an entry. -/
theorem mem_of_get?_ofList {es : List (κ × α)} {k : κ} {a : α} (h : (ofList es).get? k = some a) :
    (k, a) ∈ es :=
  (mem_of_get?_foldl_insert h).resolve_left fun hempty => nomatch hempty

/-- `Table.ofList` of entries in which equal keys have equal values. -/
theorem get?_ofList {es : List (κ × α)} {value : κ → Option α} (h : ∀ e ∈ es, value e.1 = some e.2)
    (k : κ) : (ofList es).get? k = if k ∈ es.map Prod.fst then value k else none := by
  -- By induction on the entries, from any table; a later entry of the same key stores the same.
  have hfold (t : Table κ α) : (es.foldl (fun t e => t.insert e.1 e.2) t).get? k =
      if k ∈ es.map Prod.fst then value k else t.get? k := by
    induction es generalizing t with
    | nil => simp
    | cons e es ih =>
      rw [List.foldl_cons, ih fun e' he' => h e' (List.mem_cons_of_mem e he'), get?_insert,
        List.map_cons]
      by_cases hmem : k ∈ es.map Prod.fst
      · rw [if_pos hmem, if_pos (List.mem_cons_of_mem _ hmem)]
      · by_cases hk : e.1 = k
        · rw [if_neg hmem, if_pos hk, if_pos (by simp [hk]), ← hk, h e List.mem_cons_self]
        · rw [if_neg hmem, if_neg hk, if_neg (by simpa [Ne.symm hk] using hmem)]
  exact hfold empty

end Table

end Warrant
