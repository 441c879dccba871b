import Warrant.Flow.LoopHints
import Warrant.Proofs.Dominators

/-!
# Back edges by header and by source

The back edges of a graph are kept by header, with the sources of each.
`LoopHints.backedgeHeaders?` asks for them by source.  Both list the edges of reachable blocks to
their dominators (`Graph.mem_backEdges`), so the way through the headers loses none and adds none.

* `LoopHints.backedgeHeaders_exact`: the headers of a block are its successors that dominate it, and
  a graph that is acyclic has none.
-/

namespace Warrant

namespace Graph

variable {g : Graph} {s h : BlockId}

/-- `Graph.backEdges` lists a block as a source for a header exactly if it is reachable and an edge
    leads from it to the header, which `Dominates` it. -/
theorem mem_backEdges :
    (∃ sources, (h, sources) ∈ g.backEdges ∧ s ∈ sources) ↔
      g.Reaches g.entry s ∧ g.Edge s h ∧ g.Dominates h s := by
  constructor
  · rintro ⟨sources, hmem, hs⟩
    -- A source is a row of the dominators that has the header, from which an edge leads to it.
    obtain ⟨h', -, heq⟩ := List.mem_map.1 (List.mem_filter.1 hmem).1
    cases heq
    obtain ⟨row, hrow, rfl⟩ := List.mem_map.1 hs
    obtain ⟨hrow, hcond⟩ := List.mem_filter.1 hrow
    obtain ⟨hdom, hedge⟩ : h ∈ row.2 ∧ h ∈ g.successors row.1 := by simpa using hcond
    obtain ⟨hreaches, hdominates⟩ := exists_mem_dominators.1 ⟨row.2, hrow, hdom⟩
    exact ⟨hreaches, (g.mem_successors row.1 h).1 hedge, hdominates⟩
  · rintro ⟨hreaches, hedge, hdominates⟩
    obtain ⟨doms, hrow, hdom⟩ := exists_mem_dominators.2 ⟨hreaches, hdominates⟩
    have hs : s ∈ (g.dominators.filter fun row =>
        h ∈ row.2 && h ∈ g.successors row.1).map Prod.fst := by
      refine List.mem_map.2 ⟨(s, doms), List.mem_filter.2 ⟨hrow, ?_⟩, rfl⟩
      simpa using ⟨hdom, (g.mem_successors s h).2 hedge⟩
    refine ⟨_, List.mem_filter.2 ⟨List.mem_map_of_mem hedge.target_mem, ?_⟩, hs⟩
    simpa using List.ne_nil_of_mem hs

/-- `Graph.loopHeaders` ascend. -/
private theorem pairwise_loopHeaders (g : Graph) : g.loopHeaders.Pairwise (· < ·) := by
  have hids : (g.ids.map fun h => h).Pairwise (· < ·) := by
    rw [List.map_id']
    exact g.pairwise_ids
  refine List.Pairwise.sublist (List.filter_sublist.map Prod.fst) ?_
  rw [List.map_map]
  exact hids

/-- An edge of a reachable block to what `Dominates` it closes a cycle. -/
private theorem Dominates.onCycle (hdom : g.Dominates h s) (hs : g.Reaches g.entry s)
    (hedge : g.Edge s h) : g.OnCycle s :=
  Relation.TransGen.head' hedge (hdom.reaches hs).2

end Graph

namespace LoopHints

variable {t : LoopHints} {g : Graph} {s h : BlockId} {hs : List BlockId}

/-- `backedgeHeaders?` gives the headers whose sources have the block, if there are any. -/
private theorem backedgeHeaders?_eq_some_iff :
    t.backedgeHeaders? s = some hs ↔
      hs ≠ [] ∧ hs = (t.backEdges.filter fun e => s ∈ e.2).map Prod.fst := by
  unfold backedgeHeaders?
  split
  · next hnone =>
    have hnil : t.backEdges.filter (fun e => s ∈ e.2) = [] := hnone
    simp [hnil]
  · next hsome =>
    have hne : (t.backEdges.filter fun e => s ∈ e.2).map Prod.fst ≠ [] := fun h =>
      hsome (List.map_eq_nil_iff.1 h)
    rw [Option.some.injEq]
    constructor
    · rintro rfl
      exact ⟨hne, rfl⟩
    · rintro ⟨-, rfl⟩
      rfl

/-- The headers whose sources have a block are the successors of the block which dominate it
    (`mem_backEdges`). -/
private theorem mem_headers :
    h ∈ (g.backEdges.filter fun e => s ∈ e.2).map Prod.fst ↔
      g.Reaches g.entry s ∧ g.Edge s h ∧ g.Dominates h s := by
  rw [← Graph.mem_backEdges]
  simp

/-- `backedgeHeaders?` finds some header for a block exactly if the block is reachable and an edge
    leads from it to what `Dominates` it. -/
private theorem backedgeHeaders?_isSome_iff :
    ((ofGraph g).backedgeHeaders? s).isSome ↔
      g.Reaches g.entry s ∧ ∃ h, g.Edge s h ∧ g.Dominates h s := by
  simp only [Option.isSome_iff_exists, backedgeHeaders?_eq_some_iff, exists_eq_right]
  constructor
  · intro hne
    obtain ⟨h, hmem⟩ := List.exists_mem_of_ne_nil _ hne
    obtain ⟨hreaches, hback⟩ := mem_headers.1 hmem
    exact ⟨hreaches, h, hback⟩
  · rintro ⟨hreaches, h, hback⟩
    exact List.ne_nil_of_mem (mem_headers.2 ⟨hreaches, hback⟩)

/-- The headers that `backedgeHeaders?` finds for a block are its successors that dominate it,
    ascending.  A graph for which `isAcyclic` holds has none. -/
theorem backedgeHeaders_exact (g : Graph) (s : BlockId) :
    (((ofGraph g).backedgeHeaders? s).isSome ↔
      g.Reaches g.entry s ∧ ∃ h, g.Edge s h ∧ g.Dominates h s) ∧
    (∀ hs, (ofGraph g).backedgeHeaders? s = some hs →
      hs.Pairwise (· < ·) ∧ ∀ h, h ∈ hs ↔ g.Edge s h ∧ g.Dominates h s) ∧
    (g.isAcyclic = true → (ofGraph g).backedgeHeaders? s = none) := by
  refine ⟨backedgeHeaders?_isSome_iff, fun hs hsome => ?_, fun hacyclic => ?_⟩
  · have hreaches := (backedgeHeaders?_isSome_iff.1 (Option.isSome_of_eq_some hsome)).1
    obtain ⟨-, rfl⟩ := backedgeHeaders?_eq_some_iff.1 hsome
    exact ⟨g.pairwise_loopHeaders.sublist (List.filter_sublist.map Prod.fst),
      fun h => mem_headers.trans (and_iff_right hreaches)⟩
  · -- A header would close a cycle.
    refine Option.not_isSome_iff_eq_none.1 fun hsome => ?_
    obtain ⟨hreaches, h, hedge, hdom⟩ := backedgeHeaders?_isSome_iff.1 hsome
    exact g.isAcyclic_iff.1 hacyclic s (hdom.onCycle hreaches hedge)

/-- Three loops that end in one block, and another one that the entry does not reach. -/
def threeHeaders : Graph :=
  .idle [1, 2, 4, 5] [(0, 1), (1, 2), (2, 2), (2, 1), (2, 0), (4, 5), (5, 4)]

/-- In `threeHeaders` one block has three headers, the first of which is the entry. -/
theorem backedgeHeaders_exact_threeHeaders :
    (ofGraph threeHeaders).backedgeHeaders? 2 = some [0, 1, 2] ∧ threeHeaders.Dominates 1 2 ∧
      (Graph.idle [1] [(0, 1)]).isAcyclic = true ∧
      (ofGraph (Graph.idle [1] [(0, 1)])).backedgeHeaders? 0 = none := by
  have hheaders : (ofGraph threeHeaders).backedgeHeaders? 2 = some [0, 1, 2] := by decide +kernel
  have hacyclic : (Graph.idle [1] [(0, 1)]).isAcyclic = true := by decide +kernel
  have hmem := ((backedgeHeaders_exact threeHeaders 2).2.1 _ hheaders).2 1
  exact ⟨hheaders, (hmem.1 (by decide)).2, hacyclic, (backedgeHeaders_exact _ 0).2.2 hacyclic⟩

end LoopHints

end Warrant
