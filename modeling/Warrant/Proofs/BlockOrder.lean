import Warrant.Proofs.AssemblySuccess

/-!
# The order of blocks has every block once

A search moves blocks from those that are fresh to those that are finished, and it never loses one.
The second search starts at every block that is still fresh, so in the end none is left.

* `visit_advances`: what a visit does to a search.
* `backwards_perm`: the blocks in the order in which they are finished are the blocks of the graph.
-/

namespace Warrant

/-- The blocks that a search knows, `finished` or `fresh`. -/
def Search.blocks (s : Search) : List BlockId := s.finished ++ s.fresh

/-- `s'` is a later state of the search `s`. -/
structure Search.Advances (s s' : Search) : Prop where
  blocks : s'.blocks.Perm s.blocks
  fresh : s'.fresh ⊆ s.fresh

/-- No step `Advances` a search. -/
theorem Search.Advances.refl (s : Search) : s.Advances s := ⟨.refl _, List.Subset.refl _⟩

/-- Steps add up. -/
theorem Search.Advances.trans {s s' s'' : Search} (h : s.Advances s') (h' : s'.Advances s'') :
    s.Advances s'' :=
  ⟨h'.blocks.trans h.blocks, List.Subset.trans h'.fresh h.fresh⟩

/-- A loop of steps that `Advances` a search does so. -/
theorem Search.Advances.foldl {f : Search → BlockId → Search}
    (hf : ∀ (s : Search) id, s.Advances (f s id)) (s : Search) (ids : List BlockId) :
    s.Advances (ids.foldl f s) := by
  induction ids generalizing s with
  | nil => exact .refl s
  | cons id ids ih => exact (hf s id).trans (ih _)

namespace Graph

variable (g : Graph)

/-- `Graph.visit` takes a block out while its successors are visited, and puts it behind those that
    are `finished`. -/
theorem visit_advances (depth : Nat) (s : Search) (id : BlockId) :
    s.Advances (g.visit depth id s) := by
  induction depth generalizing s id with
  | zero => exact .refl s
  | succ depth ih =>
    rw [visit]
    by_cases hfresh : id ∈ s.fresh
    · rw [if_pos hfresh]
      have hbelow := Search.Advances.foldl (fun s next => ih s next)
        { s with fresh := s.fresh.erase id } (g.successors id)
      refine ⟨?_, List.Subset.trans hbelow.fresh List.erase_subset⟩
      -- What the visits below do to the other blocks, with the block put back in at the end.
      generalize (g.successors id).foldl _ _ = below at hbelow
      have hout : (below.finished ++ [id] ++ below.fresh).Perm
          (id :: (below.finished ++ below.fresh)) := by
        rw [List.append_assoc]
        exact List.perm_middle
      have hin : (id :: (s.finished ++ s.fresh.erase id)).Perm (s.finished ++ s.fresh) :=
        List.perm_middle.symm.trans ((List.perm_cons_erase hfresh).symm.append_left _)
      exact hout.trans ((hbelow.blocks.cons id).trans hin)
    · rw [if_neg hfresh]
      exact .refl s

/-- A block is not `fresh` any more once it is visited. -/
theorem not_mem_fresh_visit {depth : Nat} {s : Search} (hs : s.blocks.Nodup) (id : BlockId) :
    id ∉ (g.visit (depth + 1) id s).fresh := by
  by_cases hfresh : id ∈ s.fresh
  · have hnodup : (g.visit (depth + 1) id s).blocks.Nodup :=
        (g.visit_advances (depth + 1) s id).blocks.nodup_iff.2 hs
    exact fun hmem => (List.nodup_append.1 hnodup).2.2 id (g.mem_finished_visit depth hfresh) id
      hmem rfl
  · rw [visit, if_neg hfresh]
    exact hfresh

/-- No block is `fresh` any more once all are visited. -/
private theorem not_mem_fresh_foldl {depth : Nat} {s : Search} (hs : s.blocks.Nodup)
    (ids : List BlockId) :
    ∀ id ∈ ids, id ∉ (ids.foldl (fun s id => g.visit (depth + 1) id s) s).fresh := by
  induction ids generalizing s with
  | nil => simp
  | cons first ids ih =>
    have hfirst := g.visit_advances (depth + 1) s first
    have hrest := Search.Advances.foldl (g.visit_advances (depth + 1)) (g.visit (depth + 1) first s)
      ids
    refine List.forall_mem_cons.2 ⟨fun hmem => ?_, ih (hfirst.blocks.nodup_iff.2 hs)⟩
    exact g.not_mem_fresh_visit hs first (hrest.fresh hmem)

/-- `Graph.ids` has no block twice, as the keys of a table ascend. -/
theorem nodup_ids : g.ids.Nodup := by
  rw [ids, Table.keys, List.Nodup, List.pairwise_map]
  refine g.blocks.ascending.imp fun {e e'} hlt heq => ?_
  simp [heq] at hlt

/-- `Graph.backwards` has the blocks of the graph, each once. -/
theorem backwards_perm : g.backwards.Perm g.ids := by
  obtain ⟨depth, hdepth⟩ := Nat.exists_eq_succ_of_ne_zero (Nat.ne_of_gt g.size_pos)
  have hentry : (Search.mk [] g.ids).Advances g.searchEntry := g.visit_advances _ _ _
  have hrest : (Search.mk [] g.searchEntry.fresh).Advances g.searchRest :=
    Search.Advances.foldl (g.visit_advances g.size) _ _
  -- The second search leaves nothing fresh.
  have hnone : g.searchRest.fresh = [] := by
    have hnodup : (Search.mk [] g.searchEntry.fresh).blocks.Nodup :=
      (List.nodup_append.1 (hentry.blocks.nodup_iff.2 g.nodup_ids)).2.1
    refine List.eq_nil_iff_forall_not_mem.2 fun id hmem => ?_
    have hid : id ∈ g.ids := hentry.fresh (hrest.fresh hmem)
    rw [searchRest, hdepth] at hmem
    exact g.not_mem_fresh_foldl hnodup g.ids id hid hmem
  have hfinished : g.searchRest.finished.Perm g.searchEntry.fresh := by
    have hblocks := hrest.blocks
    rwa [Search.blocks, hnone, List.append_nil] at hblocks
  exact (hfinished.append_left _).trans hentry.blocks

end Graph

end Warrant
