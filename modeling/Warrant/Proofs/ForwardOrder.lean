import Warrant.Proofs.BreadthFirst
import Warrant.Proofs.FinishingOrder

/-!
# The forward order and the labels

Which blocks are reachable is found twice: by a breadth-first search, and as what the depth-first
search finishes before it starts anew.  Both are the blocks that the entry reaches, so the forward
order has the reachable blocks first.  Each of its two groups is a group of finished blocks in
reverse, in which successors come first unless they lead back; so in the forward order they come
after.  An edge from an unreachable block into the reachable ones is the only kind against which the
order may go although it closes no cycle.

* `searchEntry_finished_perm`: the two searches agree.
* `idxOf_forward_lt`: within a group a block comes before the successors that do not lead back.
* `label?_eq_some_iff`: a label is a position in the forward order.
* `forward_order_exact`: the order and the labels together.
-/

namespace Warrant

namespace Graph

variable {g : Graph} {u v b : BlockId} {order : List BlockId} {n : Nat}

/-! ## The two groups -/

/-- `Graph.forward` has the blocks of the graph. -/
private theorem forward_perm (g : Graph) : g.forward.Perm g.ids :=
  ((List.reverse_perm _).append (List.reverse_perm _)).trans g.backwards_perm

/-- `Graph.forward` has no block twice. -/
private theorem nodup_forward (g : Graph) : g.forward.Nodup :=
  g.forward_perm.nodup_iff.2 g.nodup_ids

/-- The depth-first search of `searchEntry` finishes what the breadth-first search of `reachable`
    takes. -/
theorem searchEntry_finished_perm (g : Graph) : g.searchEntry.finished.Perm g.reachable := by
  have hnodup : g.searchEntry.finished.Nodup :=
    (List.nodup_append.1 (g.backwards_perm.nodup_iff.2 g.nodup_ids)).1
  have hnodup' : g.reachable.Nodup := g.nodup_ids.filter _
  refine (List.perm_ext_iff_of_nodup hnodup hnodup').2 fun b => ?_
  rw [mem_searchEntry_finished, mem_reachable]

/-- `Graph.forward` starts with what `searchEntry` has finished, in reverse. -/
private theorem take_forward (g : Graph) :
    g.forward.take g.reachable.length = g.searchEntry.finished.reverse := by
  rw [← g.searchEntry_finished_perm.length_eq, ← List.length_reverse]
  exact List.take_left

/-- `Graph.forward` starts with the entry, which is finished last of what it reaches. -/
private theorem head?_forward (g : Graph) : g.forward.head? = some g.entry := by
  obtain ⟨depth, hdepth⟩ := Nat.exists_eq_succ_of_ne_zero (Nat.ne_of_gt g.size_pos)
  -- A block is finished after all that is visited below it.
  have hlast : g.searchEntry.finished.getLast? = some g.entry := by
    rw [searchEntry, hdepth, visit,
      if_pos (show g.entry ∈ (Search.mk [] g.ids).fresh from g.entry_mem)]
    exact List.getLast?_concat
  rw [forward, List.head?_append, List.head?_reverse, hlast, Option.some_or]

/-! ## Before and after -/

/-- The position of a block in reverse is its distance from the end. -/
private theorem idxOf_reverse (hnodup : order.Nodup) (hb : b ∈ order) :
    order.reverse.idxOf b = order.length - 1 - order.idxOf b := by
  have hlt : order.idxOf b < order.length := List.idxOf_lt_length_of_mem hb
  have hlt' : order.length - 1 - order.idxOf b < order.reverse.length := by
    rw [List.length_reverse]
    omega
  -- From the end, the block is as far away as it is from the start in reverse.
  have hget : order.reverse[order.length - 1 - order.idxOf b] = b := by
    rw [List.getElem_reverse]
    have hback : order.length - 1 - (order.length - 1 - order.idxOf b) = order.idxOf b := by omega
    simp only [hback, List.getElem_idxOf]
  have hidx := ((List.reverse_perm order).nodup_iff.2 hnodup).idxOf_getElem _ hlt'
  rwa [hget] at hidx

/-- What comes first comes last in reverse. -/
private theorem idxOf_reverse_lt (hnodup : order.Nodup) (hu : u ∈ order) (hv : v ∈ order)
    (hlt : order.idxOf v < order.idxOf u) : order.reverse.idxOf u < order.reverse.idxOf v := by
  have hlength : order.idxOf u < order.length := List.idxOf_lt_length_of_mem hu
  rw [idxOf_reverse hnodup hu, idxOf_reverse hnodup hv]
  omega

/-- In `Graph.forward` the source of an edge that does not lie on a cycle comes first, if both ends
    are reachable or both are not. -/
theorem idxOf_forward_lt (hedge : g.Edge u v) (hsame : g.Reaches g.entry u ↔ g.Reaches g.entry v)
    (hback : ¬g.Reaches v u) : g.forward.idxOf u < g.forward.idxOf v := by
  have hlt : g.backwards.idxOf v < g.backwards.idxOf u := idxOf_backwards_lt hedge hback
  obtain ⟨hreached, hrest, -⟩ := List.nodup_append.1 (g.backwards_perm.nodup_iff.2 g.nodup_ids)
  rw [← mem_searchEntry_finished, ← mem_searchEntry_finished] at hsame
  rw [backwards] at hlt
  rw [forward]
  -- Both blocks stand in one of the two groups, which is reversed as a whole.
  by_cases hu : u ∈ g.searchEntry.finished
  · have hv := hsame.1 hu
    rw [List.idxOf_append_of_mem hu, List.idxOf_append_of_mem hv] at hlt
    rw [List.idxOf_append_of_mem (List.mem_reverse.2 hu),
      List.idxOf_append_of_mem (List.mem_reverse.2 hv)]
    exact idxOf_reverse_lt hreached hu hv hlt
  · have hv := mt hsame.2 hu
    -- A block that the first search does not finish is finished by the second.
    have hmem (b : BlockId) (hb : b ∈ g.ids)
        (hnot : b ∉ g.searchEntry.finished) : b ∈ g.searchRest.finished :=
      (List.mem_append.1 (g.backwards_perm.mem_iff.2 hb)).resolve_left hnot
    rw [List.idxOf_append_of_notMem hu, List.idxOf_append_of_notMem hv] at hlt
    rw [List.idxOf_append_of_notMem (mt List.mem_reverse.1 hu),
      List.idxOf_append_of_notMem (mt List.mem_reverse.1 hv)]
    exact Nat.add_lt_add_left (idxOf_reverse_lt hrest (hmem u hedge.source_mem hu)
      (hmem v hedge.target_mem hv) (Nat.lt_of_add_lt_add_left hlt)) _

/-! ## Labels -/

/-- `Graph.label?` is the position of a block in `Graph.forward`. -/
theorem label?_eq_some_iff : g.label? b = some n ↔ g.forward[n]? = some b := by
  rw [label?]
  constructor
  · intro h
    obtain ⟨hn, hb, -⟩ := List.idxOf?_eq_some_iff.1 h
    exact List.getElem?_eq_some_iff.2 ⟨hn, hb⟩
  · intro h
    obtain ⟨hn, rfl⟩ := List.getElem?_eq_some_iff.1 h
    rw [idxOf?_of_mem (List.getElem_mem hn), g.nodup_forward.idxOf_getElem n hn]

/-- `Graph.label?` has no label for what is not a block of the graph. -/
private theorem label?_eq_none_iff : g.label? b = none ↔ g.contains b = false := by
  rw [label?, List.idxOf?_eq_none_iff, g.forward_perm.mem_iff, mem_ids_iff_contains,
    Bool.not_eq_true]

/-- Every number below `Graph.size` is the `label?` of one block. -/
private theorem existsUnique_label (hn : n < g.size) : ∃! b, g.label? b = some n := by
  have hn : n < g.forward.length := by rwa [g.forward_perm.length_eq, length_ids]
  refine ⟨g.forward[n], label?_eq_some_iff.2 (List.getElem?_eq_getElem hn), fun b hb => ?_⟩
  exact ((List.getElem?_eq_some_iff.1 (label?_eq_some_iff.1 hb)).2).symm

/-- Every `label?` is below `Graph.size`. -/
private theorem label?_lt (h : g.label? b = some n) : n < g.size := by
  have hn : n < g.forward.length := (List.getElem?_eq_some_iff.1 (label?_eq_some_iff.1 h)).1
  rwa [g.forward_perm.length_eq, length_ids] at hn

/-- `Graph.reachable` are the blocks on paths from the entry. -/
private theorem mem_reachable_iff_on_path :
    b ∈ g.reachable ↔ ∃ v p, g.Path g.entry v p ∧ b ∈ p := by
  rw [mem_reachable]
  constructor
  · intro h
    obtain ⟨p, hp⟩ := reaches_iff_exists_path.1 h
    exact ⟨b, p, hp, hp.end_mem⟩
  · rintro ⟨v, p, hp, hb⟩
    exact (hp.reaches_of_mem hb).1

/-- `Graph.forward` has every block once, the entry first, and the `reachable` blocks, those on
    paths from the entry, before the others.  Within each group an edge leads forward unless it lies
    on a cycle.  So the labels (`label?`) number the blocks of the graph, and no others, from 0 on,
    which is the entry's. -/
theorem forward_order_exact (g : Graph) :
    g.forward.Perm g.ids ∧ g.forward.head? = some g.entry ∧
    (g.forward.take g.reachable.length).Perm g.reachable ∧
    (∀ b, b ∈ g.reachable ↔ ∃ v p, g.Path g.entry v p ∧ b ∈ p) ∧
    (∀ u v, g.Edge u v → (u ∈ g.reachable ↔ v ∈ g.reachable) → ¬g.Reaches v u →
      g.forward.idxOf u < g.forward.idxOf v) ∧
    (∀ b n, g.label? b = some n → n < g.size) ∧ (∀ n < g.size, ∃! b, g.label? b = some n) ∧
    (∀ b, g.label? b = none ↔ g.contains b = false) ∧ g.label? g.entry = some 0 := by
  refine ⟨g.forward_perm, g.head?_forward, ?_, fun b => mem_reachable_iff_on_path,
    fun u v hedge hsame hback => ?_, fun b n => label?_lt, fun n => existsUnique_label,
    fun b => label?_eq_none_iff, ?_⟩
  · rw [take_forward]
    exact (List.reverse_perm _).trans g.searchEntry_finished_perm
  · rw [mem_reachable, mem_reachable] at hsame
    exact idxOf_forward_lt hedge hsame hback
  · exact label?_eq_some_iff.2 (List.head?_eq_getElem? ▸ g.head?_forward)

/-- In `twoLoops` a loop that the entry does not reach leads into the blocks that it reaches. -/
theorem forward_order_exact_twoLoops :
    twoLoops.forward = [0, 1, 2, 3, 4, 5] ∧ twoLoops.reachable = [0, 1, 2, 3] ∧
      twoLoops.forward.idxOf 2 < twoLoops.forward.idxOf 3 ∧ ∃! b, twoLoops.label? b = some 5 := by
  have hback : ¬twoLoops.Reaches 3 2 := fun h =>
    absurd (h.closed (P := (· ∈ [3])) (by decide +kernel) (by decide)) (by decide)
  obtain ⟨-, -, -, -, horder, -, hlabel, -⟩ := forward_order_exact twoLoops
  exact ⟨by decide +kernel, by decide +kernel,
    horder 2 3 (by decide +kernel) (by decide +kernel) hback, hlabel 5 (by decide +kernel)⟩

end Graph

end Warrant
