import Warrant.Flow.Order

/-! # Dominators and back edges

A block dominates another if every path from the entry to the other passes through it.
`Graph.dominators` finds the dominators of every reachable block as a fixed point: it starts with
all reachable blocks everywhere except at the entry and goes through the blocks in forward order,
where it takes, for each, the block itself and what dominates all its reachable predecessors by
then, until nothing changes.

Candidates are only ever dropped (`Descending`), so that this ends.

An edge is a back edge if its target dominates its source; the target is then a loop header. -/

namespace Warrant

/-! ## Ascending lists -/

/-- The ascending list `ids` with `id` as a member. -/
def insertAscending (id : BlockId) (ids : List BlockId) : List BlockId :=
  ids.filter (· < id) ++ id :: ids.filter (id < ·)

/-- The members that all lists have, in the order of the first list.  Without a list there are
    none. -/
def common : List (List BlockId) → List BlockId
  | [] => []
  | first :: rest => first.filter fun d => rest.all (d ∈ ·)

/-- `insertAscending` adds the one member `id`. -/
private theorem mem_insertAscending {d id : BlockId} {ids : List BlockId} :
    d ∈ insertAscending id ids ↔ d = id ∨ d ∈ ids := by
  rcases Nat.lt_trichotomy d id with hlt | rfl | hlt
  · simp [insertAscending, hlt, Nat.ne_of_lt hlt, Nat.lt_asymm hlt]
  · simp [insertAscending]
  · simp [insertAscending, hlt, Nat.ne_of_gt hlt, Nat.lt_asymm hlt]

/-- `insertAscending` keeps a list ascending. -/
private theorem pairwise_insertAscending {ids : List BlockId} (h : ids.Pairwise (· < ·))
    (id : BlockId) : (insertAscending id ids).Pairwise (· < ·) := by
  rw [insertAscending, List.pairwise_append, List.pairwise_cons]
  refine ⟨h.filter _, ⟨fun d hd => by simpa using (List.mem_filter.1 hd).2, h.filter _⟩,
    fun a ha b hb => ?_⟩
  have hlt : a < id := by simpa using (List.mem_filter.1 ha).2
  rcases List.mem_cons.1 hb with rfl | hb
  · exact hlt
  · have hgt : id < b := by simpa using (List.mem_filter.1 hb).2
    exact Nat.lt_trans hlt hgt

/-- `common` has the members of all lists, if there are any lists. -/
private theorem mem_common {d : BlockId} {lists : List (List BlockId)} :
    d ∈ common lists ↔ lists ≠ [] ∧ ∀ ids ∈ lists, d ∈ ids := by
  cases lists with
  | nil => simp [common]
  | cons first rest => simp [common]

/-- `common` is ascending if all lists are, as it is taken from the first. -/
private theorem pairwise_common {lists : List (List BlockId)}
    (h : ∀ ids ∈ lists, ids.Pairwise (· < ·)) : (common lists).Pairwise (· < ·) := by
  cases lists with
  | nil => exact .nil
  | cons first rest => exact (h first List.mem_cons_self).filter _

/-- Of ascending lists, one with no other members is the other or is shorter. -/
private theorem eq_or_length_lt_of_subset {ids ids' : List BlockId} (hids : ids.Pairwise (· < ·))
    (hids' : ids'.Pairwise (· < ·)) (hsub : ids ⊆ ids') :
    ids = ids' ∨ ids.length < ids'.length := by
  induction ids' generalizing ids with
  | nil => exact .inl (List.subset_nil.1 hsub)
  | cons y ys ih =>
    obtain ⟨hy, hys⟩ := List.pairwise_cons.1 hids'
    cases ids with
    | nil => exact .inr (Nat.zero_lt_succ _)
    | cons x xs =>
      obtain ⟨hx, hxs⟩ := List.pairwise_cons.1 hids
      rcases List.mem_cons.1 (hsub List.mem_cons_self) with rfl | hmem
      · have hrest : xs ⊆ ys := fun a ha =>
          (List.mem_cons.1 (hsub (List.mem_cons_of_mem x ha))).resolve_left (Nat.ne_of_gt (hx a ha))
        rcases ih hxs hys hrest with rfl | hlt
        · exact .inl rfl
        · exact .inr (Nat.succ_lt_succ hlt)
      · -- The first of the longer list is below everything in the other one.
        have hall : x :: xs ⊆ ys := by
          intro a ha
          refine (List.mem_cons.1 (hsub ha)).resolve_left (Nat.ne_of_gt ?_)
          rcases List.mem_cons.1 ha with rfl | ha
          · exact hy a hmem
          · exact Nat.lt_trans (hy x hmem) (hx a ha)
        rcases ih hids hys hall with heq | hlt
        · exact .inr (heq ▸ Nat.lt_succ_self _)
        · exact .inr (Nat.lt_succ_of_lt hlt)

/-! ## Rows of candidates -/

/-- A reachable `block`, its reachable `predecessors` and the `candidates` for its dominators,
    ascending. -/
structure DominatorRow where
  block : BlockId
  predecessors : List BlockId
  candidates : List BlockId
  deriving DecidableEq, Repr

/-- The `candidates` for the block `id`, from its row. -/
def candidatesFor (rows : List DominatorRow) (id : BlockId) : List BlockId :=
  ((rows.find? (·.block = id)).map DominatorRow.candidates).getD []

/-- The candidates that the `predecessors` of a block leave: those of all of them, and the block
    itself. -/
def DominatorRow.refined (rows : List DominatorRow) (row : DominatorRow) : List BlockId :=
  insertAscending row.block (common (row.predecessors.map (candidatesFor rows)))

/-- The row, with its candidates `refined` if it is that of the block `id`. -/
def DominatorRow.refine (rows : List DominatorRow) (id : BlockId) (row : DominatorRow) :
    DominatorRow :=
  { row with candidates := if row.block = id then row.refined rows else row.candidates }

/-- `refine` the row of the block `id`. -/
def refineAt (rows : List DominatorRow) (id : BlockId) : List DominatorRow :=
  rows.map (DominatorRow.refine rows id)

/-- `refineAt` the blocks of `order`, one after the other, so that a block sees what its
    predecessors have become. -/
def sweep (order : List BlockId) (rows : List DominatorRow) : List DominatorRow :=
  order.foldl refineAt rows

/-- The number of `candidates`, of all rows together. -/
def candidateCount (rows : List DominatorRow) : Nat := (rows.flatMap DominatorRow.candidates).length

section

variable {rows : List DominatorRow} {row : DominatorRow} {order ids : List BlockId} {id d : BlockId}

/-- The members of `refined`: the block itself, and what is a candidate for all of its predecessors,
    where it has any. -/
theorem DominatorRow.mem_refined :
    d ∈ row.refined rows ↔
      d = row.block ∨ row.predecessors ≠ [] ∧ ∀ u ∈ row.predecessors, d ∈ candidatesFor rows u := by
  simp [DominatorRow.refined, mem_insertAscending, mem_common]

/-- The rows of the blocks in `order` can only lose candidates when they are `refined`. -/
structure Descending (order : List BlockId) (rows : List DominatorRow) : Prop where
  ascending : ∀ row ∈ rows, row.candidates.Pairwise (· < ·)
  refined_subset : ∀ row ∈ rows, row.block ∈ order → row.refined rows ⊆ row.candidates

/-- With `Descending` rows, `refined` candidates are ascending too. -/
private theorem Descending.pairwise_refined (h : Descending order rows) (row : DominatorRow) :
    (row.refined rows).Pairwise (· < ·) := by
  refine pairwise_insertAscending (pairwise_common fun ids hids => ?_) row.block
  obtain ⟨u, -, rfl⟩ := List.mem_map.1 hids
  unfold candidatesFor
  cases hfind : rows.find? (·.block = u) with
  | none => exact .nil
  | some found => exact h.ascending found (List.mem_of_find?_eq_some hfind)

/-- With `Descending` rows, `refine` gives a row no new candidate. -/
private theorem Descending.refine_subset (h : Descending order rows) (hid : id ∈ order)
    (hrow : row ∈ rows) : (row.refine rows id).candidates ⊆ row.candidates := by
  by_cases hblock : row.block = id
  · rw [DominatorRow.refine, if_pos hblock]
    exact h.refined_subset row hrow (hblock ▸ hid)
  · rw [DominatorRow.refine, if_neg hblock]
    exact List.Subset.refl _

/-- With `Descending` rows, `refineAt` gives no block a new candidate. -/
private theorem Descending.candidatesFor_subset (h : Descending order rows) (hid : id ∈ order)
    (u : BlockId) : candidatesFor (refineAt rows id) u ⊆ candidatesFor rows u := by
  have hfind : (refineAt rows id).find? (·.block = u) =
      (rows.find? (·.block = u)).map (DominatorRow.refine rows id) :=
    List.find?_map
  -- `refine` keeps the block of a row, so the row of `u` is found at the same place.
  unfold candidatesFor
  rw [hfind]
  cases hrow : rows.find? (·.block = u) with
  | none => exact List.Subset.refl _
  | some row => exact h.refine_subset hid (List.mem_of_find?_eq_some hrow)

/-- Rows stay `Descending` when one of them is refined. -/
theorem Descending.after_refineAt (h : Descending order rows) (hid : id ∈ order) :
    Descending order (refineAt rows id) where
  ascending row' hrow' := by
    obtain ⟨row, hrow, rfl⟩ := List.mem_map.1 hrow'
    rw [DominatorRow.refine]
    split
    · exact h.pairwise_refined row
    · exact h.ascending row hrow
  refined_subset row' hrow' hblock d hd := by
    obtain ⟨row, hrow, rfl⟩ := List.mem_map.1 hrow'
    -- What is left now was left before, as the predecessors have no new candidates.
    have hbefore : d ∈ row.refined rows := by
      refine DominatorRow.mem_refined.2 ((DominatorRow.mem_refined.1 hd).imp_right fun hall => ?_)
      exact ⟨hall.1, fun u hu => h.candidatesFor_subset hid u (hall.2 u hu)⟩
    rw [DominatorRow.refine]
    split
    · exact hbefore
    · exact h.refined_subset row hrow hblock hbefore

/-- `refineAt` leaves the rows as they are or drops a candidate. -/
theorem Descending.refineAt_eq_or_lt (h : Descending order rows) (hid : id ∈ order) :
    refineAt rows id = rows ∨ candidateCount (refineAt rows id) < candidateCount rows := by
  have hrow : ∀ row ∈ rows, row.refine rows id = row ∨
      (row.refine rows id).candidates.length < row.candidates.length := by
    intro row hrow
    have hpairwise := (h.after_refineAt hid).ascending _ (List.mem_map_of_mem hrow)
    refine (eq_or_length_lt_of_subset hpairwise (h.ascending row hrow)
      (h.refine_subset hid hrow)).imp_left fun heq => ?_
    exact congrArg (DominatorRow.mk row.block row.predecessors) heq
  clear h
  unfold refineAt candidateCount
  -- The rows that are looked up stay the same while those that are refined are gone through.
  generalize DominatorRow.refine rows id = refine at hrow ⊢
  induction rows with
  | nil => exact .inl rfl
  | cons row rows ih =>
    obtain ⟨hfirst, hrest⟩ := List.forall_mem_cons.1 hrow
    simp only [List.map_cons, List.flatMap_cons, List.length_append, List.cons.injEq]
    -- The count is a sum over the rows: it is less if it is for the first row or for the others.
    rcases hfirst with hfirst | hfirst <;> rcases ih hrest with ih | ih
    · exact .inl ⟨hfirst, ih⟩
    · rw [hfirst]
      exact .inr (by omega)
    · rw [ih]
      exact .inr (by omega)
    · exact .inr (by omega)

/-- So does `sweep`, which refines several rows, one after the other. -/
theorem Descending.after_sweep_of_subset (h : Descending order rows) (hids : ids ⊆ order) :
    Descending order (sweep ids rows) ∧
      (sweep ids rows = rows ∨ candidateCount (sweep ids rows) < candidateCount rows) := by
  induction ids generalizing rows with
  | nil => exact ⟨h, .inl rfl⟩
  | cons id ids ih =>
    obtain ⟨hid, hids⟩ := List.cons_subset.1 hids
    obtain ⟨hdescending, hrest⟩ := ih (h.after_refineAt hid) hids
    refine ⟨hdescending, ?_⟩
    show sweep ids (refineAt rows id) = rows ∨
      candidateCount (sweep ids (refineAt rows id)) < candidateCount rows
    -- If the first row shrinks, the others can only make it less.
    rcases h.refineAt_eq_or_lt hid with hfirst | hfirst
    · rwa [hfirst] at hrest ⊢
    · rcases hrest with hrest | hrest
      · rw [hrest]
        exact .inr hfirst
      · exact .inr (Nat.lt_trans hrest hfirst)

/-- Rows stay `Descending` when they are swept. -/
private theorem Descending.after_sweep (h : Descending order rows) :
    Descending order (sweep order rows) :=
  (h.after_sweep_of_subset (List.Subset.refl _)).1

/-- `sweep` leaves the rows as they are or drops a candidate, so that `settle` ends. -/
theorem Descending.sweep_eq_or_lt (h : Descending order rows) :
    sweep order rows = rows ∨ candidateCount (sweep order rows) < candidateCount rows :=
  (h.after_sweep_of_subset (List.Subset.refl _)).2

end

/-- `sweep` until nothing changes. -/
def settle (order : List BlockId) (rows : List DominatorRow) (h : Descending order rows) :
    List DominatorRow :=
  let swept := sweep order rows
  if swept = rows then rows else settle order swept h.after_sweep
termination_by candidateCount rows
decreasing_by exact h.sweep_eq_or_lt.resolve_left ‹_›

/-! ## The dominators of a graph -/

namespace Graph

/-- The first candidates: the entry for the entry, and for any other block all `reachable`
    blocks. -/
def initialRows (g : Graph) : List DominatorRow :=
  let reached := g.reachable
  reached.map fun b =>
    { block := b
      predecessors := reached.filter fun p => b ∈ g.successors p
      candidates := if b = g.entry then [b] else reached }

/-- The blocks whose rows are refined, in this order: the `reachable` ones without the entry,
    `forward`. -/
def sweepOrder (g : Graph) : List BlockId :=
  let reached := g.reachable
  g.forward.filter fun b => b ∈ reached && b ≠ g.entry

/-- `ids` is ascending, as the keys of a table are. -/
theorem pairwise_ids (g : Graph) : g.ids.Pairwise (· < ·) :=
  List.pairwise_map.2 (g.blocks.ascending.imp fun h => Nat.compare_eq_lt.1 h)

/-- `reachable` is ascending, as `ids` is. -/
theorem pairwise_reachable (g : Graph) : g.reachable.Pairwise (· < ·) := g.pairwise_ids.filter _

/-- The first candidates are `reachable` blocks. -/
private theorem candidatesFor_initialRows_subset (g : Graph) (id : BlockId) :
    candidatesFor g.initialRows id ⊆ g.reachable := by
  unfold candidatesFor
  cases hfind : g.initialRows.find? (·.block = id) with
  | none => exact List.nil_subset _
  | some row =>
    obtain ⟨b, hb, rfl⟩ := List.mem_map.1 (List.mem_of_find?_eq_some hfind)
    show (if b = g.entry then [b] else g.reachable) ⊆ g.reachable
    split
    · exact fun d hd => List.mem_singleton.1 hd ▸ hb
    · exact List.Subset.refl _

/-- The `initialRows` are `Descending`, so `settle` can start with them. -/
theorem descending_initialRows (g : Graph) : Descending g.sweepOrder g.initialRows where
  ascending row hrow := by
    obtain ⟨b, -, rfl⟩ := List.mem_map.1 hrow
    dsimp only
    split
    · exact List.pairwise_singleton _ _
    · exact g.pairwise_reachable
  refined_subset row hrow hblock d hd := by
    obtain ⟨b, hb, rfl⟩ := List.mem_map.1 hrow
    have hne : b ≠ g.entry := by simpa using (Bool.and_eq_true_iff.1 (List.mem_filter.1 hblock).2).2
    rw [if_neg hne]
    rcases DominatorRow.mem_refined.1 hd with rfl | ⟨hpredecessors, hall⟩
    · exact hb
    · -- What all predecessors have is a candidate of some predecessor, so it is reachable.
      obtain ⟨u, hu⟩ := List.exists_mem_of_ne_nil _ hpredecessors
      exact g.candidatesFor_initialRows_subset u (hall u hu)

/-- The dominators of each reachable block, both ascending: the rows that `settle` ends with. -/
def dominators (g : Graph) : List (BlockId × List BlockId) :=
  (settle g.sweepOrder g.initialRows g.descending_initialRows).map fun row =>
    (row.block, row.candidates)

/-- Loop headers with the sources of the back edges that lead to them, both ascending: the target of
    a back edge is among the `dominators` of its source. -/
def backEdges (g : Graph) : List (BlockId × List BlockId) :=
  let rows := g.dominators
  let sources (h : BlockId) : List BlockId :=
    (rows.filter fun (s, doms) => h ∈ doms && h ∈ g.successors s).map Prod.fst
  (g.ids.map fun h => (h, sources h)).filter fun (_, ss) => !ss.isEmpty

/-- The targets of `backEdges`, ascending. -/
def loopHeaders (g : Graph) : List BlockId := g.backEdges.map Prod.fst

end Graph

end Warrant
