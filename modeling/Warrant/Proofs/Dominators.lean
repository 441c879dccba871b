import Mathlib.Logic.Function.Iterate
import Warrant.Flow.Dominance
import Warrant.Proofs.BreadthFirst
import Warrant.Proofs.FinishingOrder

/-!
# Candidates settle on the dominators

The rows start with every dominator among the candidates, and no refinement drops one (`RowsOf`): a
dominator of a block other than the block itself dominates its predecessors.  Once a sweep changes
nothing, a candidate that a path to the block does not pass would be a candidate for the block
before on the path, and so back to the entry, which is the only candidate there.  So nothing else is
left (`RowsOf.mem_of_path`).

* `settle_spec`: sweeps end, after no more of them than there are candidates.
* `dominators_exact`: what is left are the dominators of the reachable blocks.
-/

namespace Warrant

variable {rows : List DominatorRow} {row : DominatorRow} {order ids : List BlockId} {id d : BlockId}

/-! ## Sweeps -/

/-- Where `sweep` changes nothing, neither does `refineAt` for any of its blocks. -/
private theorem Descending.refineAt_eq (h : Descending order rows) (hids : ids ⊆ order)
    (hfixed : sweep ids rows = rows) : ∀ id ∈ ids, refineAt rows id = rows := by
  induction ids with
  | nil => exact fun id hid => absurd hid List.not_mem_nil
  | cons first ids ih =>
    obtain ⟨hid, hids⟩ := List.cons_subset.1 hids
    have hfixed : sweep ids (refineAt rows first) = rows := hfixed
    -- A candidate that the first refinement drops does not come back.
    have hfirst : refineAt rows first = rows := by
      refine (h.refineAt_eq_or_lt hid).resolve_right fun hlt => ?_
      rcases ((h.after_refineAt hid).after_sweep_of_subset hids).2 with heq | hlt'
      · exact absurd (congrArg candidateCount (heq.symm.trans hfixed)) (Nat.ne_of_lt hlt)
      · exact absurd (congrArg candidateCount hfixed) (Nat.ne_of_lt (Nat.lt_trans hlt' hlt))
    rw [hfirst] at hfixed
    exact List.forall_mem_cons.2 ⟨hfirst, ih hids hfixed⟩

/-- Where `refineAt` changes nothing, the row of the block is as it would be `refined`. -/
private theorem refined_eq_of_refineAt_eq (h : refineAt rows row.block = rows) (hrow : row ∈ rows) :
    row.refined rows = row.candidates := by
  have hmap : rows.map (DominatorRow.refine rows row.block) = rows.map fun row => row := by
    rw [List.map_id']
    exact h
  have hrefine := congrArg DominatorRow.candidates (List.map_inj_left.1 hmap row hrow)
  rwa [DominatorRow.refine, if_pos rfl] at hrefine

/-- `settle` ends where one more `sweep` changes nothing.  As each but the last drops a candidate,
    there are no more sweeps than candidates. -/
theorem settle_spec (h : Descending order rows) :
    ∃ rounds ≤ candidateCount rows, settle order rows h = (sweep order)^[rounds] rows ∧
      sweep order (settle order rows h) = settle order rows h ∧
        Descending order (settle order rows h) := by
  fun_induction settle order rows h with
  | case1 rows h swept hfixed => exact ⟨0, Nat.zero_le _, rfl, hfixed, h⟩
  | case2 rows h swept hchanged ih =>
    obtain ⟨rounds, hle, hiterate, hsettled⟩ := ih
    have hlt : candidateCount swept < candidateCount rows := h.sweep_eq_or_lt.resolve_left hchanged
    exact ⟨rounds + 1, Nat.le_trans (Nat.succ_le_succ hle) hlt, hiterate, hsettled⟩

/-- `candidateCount` is bounded by the number of rows and the length of each. -/
private theorem candidateCount_le {n : Nat} (h : ∀ row ∈ rows, row.candidates.length ≤ n) :
    candidateCount rows ≤ rows.length * n := by
  induction rows with
  | nil => simp [candidateCount]
  | cons row rows ih =>
    obtain ⟨hrow, hrows⟩ := List.forall_mem_cons.1 h
    have hle : candidateCount rows ≤ rows.length * n := ih hrows
    rw [List.length_cons, Nat.succ_mul, candidateCount, List.flatMap_cons, List.length_append,
      Nat.add_comm]
    exact Nat.add_le_add hle hrow

namespace Graph

variable {g : Graph} {b : BlockId} {p : List BlockId}

/-! ## The rows of a graph -/

/-- The rows of the `reachable` blocks, with all that `Dominates` a block among its candidates. -/
structure RowsOf (g : Graph) (rows : List DominatorRow) : Prop where
  blocks : rows.map DominatorRow.block = g.reachable
  predecessors : ∀ row ∈ rows, ∀ u, u ∈ row.predecessors ↔ g.Reaches g.entry u ∧ g.Edge u row.block
  entry : ∀ row ∈ rows, row.block = g.entry → row.candidates = [g.entry]
  dominators : ∀ row ∈ rows, ∀ d, g.Dominates d row.block → d ∈ row.candidates

/-- `RowsOf` are rows of reachable blocks. -/
theorem RowsOf.reaches (h : g.RowsOf rows) (hrow : row ∈ rows) : g.Reaches g.entry row.block :=
  mem_reachable.1 (h.blocks ▸ List.mem_map_of_mem hrow)

/-- `candidatesFor` a reachable block are those of a row. -/
private theorem RowsOf.exists_row (h : g.RowsOf rows) (hb : g.Reaches g.entry b) :
    ∃ row ∈ rows, row.block = b ∧ candidatesFor rows b = row.candidates := by
  have hmem : b ∈ rows.map DominatorRow.block := h.blocks ▸ mem_reachable.2 hb
  obtain ⟨row, hrow, hblock⟩ := List.mem_map.1 hmem
  have hsome : (rows.find? (·.block = b)).isSome :=
    List.find?_isSome.2 ⟨row, hrow, by simpa using hblock⟩
  obtain ⟨found, hfound⟩ := Option.isSome_iff_exists.1 hsome
  refine ⟨found, List.mem_of_find?_eq_some hfound, by simpa using List.find?_some hfound, ?_⟩
  rw [candidatesFor, hfound]
  rfl

/-- `DominatorRow.refined` drops no dominator. -/
theorem RowsOf.mem_refined (h : g.RowsOf rows) (hrow : row ∈ rows) (hne : row.block ≠ g.entry)
    (hd : g.Dominates d row.block) : d ∈ row.refined rows := by
  refine DominatorRow.mem_refined.2 ?_
  by_cases hself : d = row.block
  · exact .inl hself
  · -- The last edge of a path to the block starts at a predecessor.
    obtain ⟨u, hu⟩ : ∃ u, u ∈ row.predecessors := by
      rcases (h.reaches hrow).cases_tail with heq | ⟨u, hreaches, hedge⟩
      · exact absurd heq hne
      · exact ⟨u, (h.predecessors row hrow u).2 ⟨hreaches, hedge⟩⟩
    refine .inr ⟨List.ne_nil_of_mem hu, fun u hu => ?_⟩
    obtain ⟨hreaches, hedge⟩ := (h.predecessors row hrow u).1 hu
    obtain ⟨above, habove, rfl, hcandidates⟩ := h.exists_row hreaches
    rw [hcandidates]
    exact h.dominators above habove d (hd.of_edge hself hedge)

/-- `refineAt` a block other than the entry keeps `RowsOf`. -/
theorem RowsOf.refineAt (h : g.RowsOf rows) (hid : id ≠ g.entry) : g.RowsOf (refineAt rows id) where
  blocks := by
    rw [← h.blocks, Warrant.refineAt, List.map_map]
    rfl
  predecessors row' hrow' := by
    obtain ⟨row, hrow, rfl⟩ := List.mem_map.1 hrow'
    exact h.predecessors row hrow
  entry row' hrow' hentry := by
    obtain ⟨row, hrow, rfl⟩ := List.mem_map.1 hrow'
    -- The row of the entry is not the one that is refined.
    have hne : row.block ≠ id := fun heq => hid (heq ▸ hentry)
    rw [DominatorRow.refine, if_neg hne]
    exact h.entry row hrow hentry
  dominators row' hrow' d hd := by
    obtain ⟨row, hrow, rfl⟩ := List.mem_map.1 hrow'
    rw [DominatorRow.refine]
    split
    · next heq => exact h.mem_refined hrow (heq ▸ hid) hd
    · exact h.dominators row hrow d hd

/-- `sweep` over blocks other than the entry keeps `RowsOf`. -/
theorem RowsOf.sweep (h : g.RowsOf rows) (horder : ∀ id ∈ order, id ≠ g.entry) :
    g.RowsOf (sweep order rows) := by
  induction order generalizing rows with
  | nil => exact h
  | cons id order ih =>
    obtain ⟨hid, horder⟩ := List.forall_mem_cons.1 horder
    exact ih (h.refineAt hid) horder

/-- Any number of rounds of `sweep` keeps `RowsOf`. -/
private theorem RowsOf.iterate_sweep (h : g.RowsOf rows) (horder : ∀ id ∈ order, id ≠ g.entry)
    (rounds : Nat) : g.RowsOf ((Warrant.sweep order)^[rounds] rows) := by
  induction rounds generalizing rows with
  | zero => exact h
  | succ rounds ih => exact ih (h.sweep horder)

/-- Once `refined` changes no row, every path to a block passes through its candidates. -/
theorem RowsOf.mem_of_path (h : g.RowsOf rows)
    (hfixed : ∀ row ∈ rows, row.block ≠ g.entry → row.refined rows = row.candidates)
    (hp : g.Path g.entry b p) (hrow : row ∈ rows) (hblock : row.block = b)
    (hd : d ∈ row.candidates) : d ∈ p := by
  -- Back along the path: a candidate is the block itself or a candidate for the block before.
  induction hp generalizing row with
  | start => rwa [h.entry row hrow hblock] at hd
  | @step v w p hp hedge ih =>
    subst hblock
    by_cases hentry : row.block = g.entry
    · rw [h.entry row hrow hentry] at hd
      rw [hentry]
      exact List.mem_append_right p hd
    · rw [← hfixed row hrow hentry] at hd
      rcases DominatorRow.mem_refined.1 hd with hself | ⟨-, habove⟩
      · exact List.mem_append_right p (List.mem_singleton.2 hself)
      · have hreaches : g.Reaches g.entry v := reaches_iff_exists_path.2 ⟨p, hp⟩
        have hmem : d ∈ candidatesFor rows v :=
          habove v ((h.predecessors row hrow v).2 ⟨hreaches, hedge⟩)
        obtain ⟨above, hrow', rfl, hcandidates⟩ := h.exists_row hreaches
        exact List.mem_append_left _ (ih hrow' rfl (hcandidates ▸ hmem))

/-! ## The dominators of a graph -/

/-- No more blocks are `reachable` than there are. -/
private theorem length_reachable_le (g : Graph) : g.reachable.length ≤ g.size :=
  Nat.le_trans (List.length_filter_le _ _) (Nat.le_of_eq g.length_ids)

/-- `initialRows` are `RowsOf` the graph. -/
private theorem rowsOf_initialRows (g : Graph) : g.RowsOf g.initialRows where
  blocks := by
    rw [initialRows, List.map_map]
    exact List.map_id' _
  predecessors row hrow u := by
    obtain ⟨b, -, rfl⟩ := List.mem_map.1 hrow
    rw [List.mem_filter, decide_eq_true_iff, mem_reachable, mem_successors]
    rfl
  entry row hrow hentry := by
    obtain ⟨b, -, rfl⟩ := List.mem_map.1 hrow
    obtain rfl : b = g.entry := hentry
    exact if_pos rfl
  dominators row hrow d hd := by
    obtain ⟨b, hb, rfl⟩ := List.mem_map.1 hrow
    dsimp only at hd ⊢
    split
    · -- Only the entry dominates itself, and all dominators of another block are reached.
      next hentry => exact List.mem_singleton.2 ((hentry ▸ hd).eq_entry.trans hentry.symm)
    · exact mem_reachable.2 (hd.reaches (mem_reachable.1 hb)).1

/-- `initialRows` have at most as many candidates as there are pairs of blocks. -/
private theorem candidateCount_initialRows_le (g : Graph) :
    candidateCount g.initialRows ≤ g.size * g.size := by
  have hrows : g.initialRows.length = g.reachable.length := List.length_map _
  have hlength : g.initialRows.length * g.size ≤ g.size * g.size :=
    Nat.mul_le_mul_right g.size (hrows ▸ g.length_reachable_le)
  refine Nat.le_trans (candidateCount_le fun row hrow => ?_) hlength
  obtain ⟨b, -, rfl⟩ := List.mem_map.1 hrow
  dsimp only
  split
  · exact g.size_pos
  · exact g.length_reachable_le

/-- `sweepOrder` has every reachable block but the entry. -/
private theorem mem_sweepOrder : b ∈ g.sweepOrder ↔ g.Reaches g.entry b ∧ b ≠ g.entry := by
  have hforward : g.Reaches g.entry b → b ∈ g.forward := fun hb =>
    List.mem_append_left _ (List.mem_reverse.2 (mem_searchEntry_finished.2 hb))
  simpa [sweepOrder, mem_reachable] using fun hb _ => hforward hb

/-- The rows that `settle` ends with are `RowsOf` the graph. -/
private theorem rowsOf_settle (g : Graph) :
    g.RowsOf (settle g.sweepOrder g.initialRows g.descending_initialRows) := by
  obtain ⟨rounds, -, hiterate, -⟩ := settle_spec g.descending_initialRows
  rw [hiterate]
  exact g.rowsOf_initialRows.iterate_sweep (fun id hid => (mem_sweepOrder.1 hid).2) rounds

/-- The candidates that `settle` ends with are the dominators. -/
private theorem mem_candidates_iff
    (hrow : row ∈ settle g.sweepOrder g.initialRows g.descending_initialRows) :
    d ∈ row.candidates ↔ g.Dominates d row.block := by
  have h := g.rowsOf_settle
  obtain ⟨-, -, -, hsweep, hdescending⟩ := settle_spec g.descending_initialRows
  have hfixed : ∀ row ∈ settle g.sweepOrder g.initialRows g.descending_initialRows,
      row.block ≠ g.entry → row.refined _ = row.candidates := fun row hrow hne =>
    refined_eq_of_refineAt_eq (hdescending.refineAt_eq (List.Subset.refl _) hsweep row.block
      (mem_sweepOrder.2 ⟨h.reaches hrow, hne⟩)) hrow
  exact ⟨fun hd p hp => h.mem_of_path hfixed hp hrow rfl hd, h.dominators row hrow d⟩

/-- `Graph.dominators` has the `reachable` blocks. -/
private theorem map_fst_dominators (g : Graph) : g.dominators.map Prod.fst = g.reachable := by
  rw [dominators, List.map_map]
  exact g.rowsOf_settle.blocks

/-- `Graph.dominators` lists for a reachable block what `Dominates` it. -/
theorem exists_mem_dominators :
    (∃ doms, (b, doms) ∈ g.dominators ∧ d ∈ doms) ↔ g.Reaches g.entry b ∧ g.Dominates d b := by
  constructor
  · rintro ⟨doms, hmem, hd⟩
    obtain ⟨row, hrow, heq⟩ := List.mem_map.1 hmem
    cases heq
    exact ⟨g.rowsOf_settle.reaches hrow, (mem_candidates_iff hrow).1 hd⟩
  · rintro ⟨hb, hd⟩
    obtain ⟨row, hrow, rfl, -⟩ := g.rowsOf_settle.exists_row hb
    exact ⟨row.candidates, List.mem_map_of_mem hrow, (mem_candidates_iff hrow).2 hd⟩

/-- The sweeps of `Graph.dominators` end, and what they leave are the reachable blocks, each with
    exactly the blocks that no path from the entry to it avoids. -/
theorem dominators_exact (g : Graph) :
    (∃ rounds ≤ g.size * g.size,
      (sweep g.sweepOrder)^[rounds + 1] g.initialRows =
        (sweep g.sweepOrder)^[rounds] g.initialRows ∧
      g.dominators = ((sweep g.sweepOrder)^[rounds] g.initialRows).map fun row =>
        (row.block, row.candidates)) ∧
    (g.dominators.map Prod.fst).Pairwise (· < ·) ∧
    (∀ b, b ∈ g.dominators.map Prod.fst ↔ g.Reaches g.entry b) ∧
    ∀ b doms, (b, doms) ∈ g.dominators →
      doms.Pairwise (· < ·) ∧ ∀ d, d ∈ doms ↔ g.Dominates d b := by
  obtain ⟨rounds, hle, hiterate, hfixed, hdescending⟩ := settle_spec g.descending_initialRows
  refine ⟨⟨rounds, Nat.le_trans hle g.candidateCount_initialRows_le, ?_, ?_⟩, ?_, fun b => ?_, ?_⟩
  · rw [Function.iterate_succ_apply', ← hiterate, hfixed]
  · rw [dominators, hiterate]
  · rw [map_fst_dominators]
    exact g.pairwise_reachable
  · rw [map_fst_dominators, mem_reachable]
  · intro b doms hmem
    obtain ⟨row, hrow, heq⟩ := List.mem_map.1 hmem
    cases heq
    exact ⟨hdescending.ascending row hrow, fun d => mem_candidates_iff hrow⟩

/-- A loop with two entrances, a loop of one block behind it, and a block that nothing leads to. -/
def twoEntrances : Graph :=
  idle [1, 2, 3, 4] [(0, 1), (0, 2), (1, 2), (2, 1), (2, 3), (3, 3), (4, 3)]

/-- In `twoEntrances` only one block of the loop dominates what is behind it. -/
theorem dominators_exact_twoEntrances :
    (3, [0, 2, 3]) ∈ twoEntrances.dominators ∧ twoEntrances.Dominates 2 3 ∧
      ¬twoEntrances.Dominates 1 3 := by
  have hmem : (3, [0, 2, 3]) ∈ twoEntrances.dominators := by decide +kernel
  have hiff := ((dominators_exact twoEntrances).2.2.2 3 [0, 2, 3] hmem).2
  exact ⟨hmem, (hiff 2).1 (by decide), fun h => absurd ((hiff 1).2 h) (by decide)⟩

end Graph

end Warrant
