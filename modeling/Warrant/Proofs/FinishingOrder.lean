import Mathlib.Data.List.Perm.Subperm
import Warrant.Proofs.BlockOrder
import Warrant.Proofs.Paths

/-!
# Blocks are finished after their successors

A search is in the middle of a block from its visit until it is finished: the block is then neither
fresh nor finished (`Open`).  While a block is visited, every open block reaches it.  So when it is
finished, each of its successors is finished already or is open, and then an edge to it closes a
cycle.  That is the invariant (`Explored`), which `visit_explored` shows for a visit and
`explored_foldl` for a series of visits.

* `mem_searchEntry_finished`: the first search finds what the entry reaches.
* `backwards_successors_first`: every block is listed once, and after those of its successors that
  do not lead back.
* `isAcyclic_exact`: positions in that order tell whether there is a cycle.
-/

namespace Warrant

/-- The search with the blocks `before` finished before its own. -/
def Search.behind (before : List BlockId) (s : Search) : Search :=
  { s with finished := before ++ s.finished }

namespace Graph

variable {g : Graph} {s s' : Search} {u v b id : BlockId} {depth : Nat}
  {order before : List BlockId}

/-! ## The invariant of a search -/

/-- A block that is being visited, and is neither `finished` nor `fresh`. -/
def Open (g : Graph) (s : Search) (b : BlockId) : Prop := b ∈ g.ids ∧ b ∉ s.blocks

/-- The blocks that are `Open` stay so while a search `Advances`. -/
private theorem open_iff_of_advances (h : s.Advances s') : g.Open s' b ↔ g.Open s b :=
  and_congr_right fun _ => not_congr h.blocks.mem_iff

/-- Every block stands behind its successors, apart from those that lead back to it. -/
inductive SuccessorsFirst (g : Graph) : List BlockId → Prop where
  | nil : SuccessorsFirst g []
  | snoc {order : List BlockId} {b : BlockId} (h : SuccessorsFirst g order)
      (hb : ∀ v, g.Edge b v → v ∈ order ∨ g.Reaches v b) : SuccessorsFirst g (order ++ [b])

/-- What holds of a search between two `Graph.visit`. -/
structure Explored (g : Graph) (s : Search) : Prop where
  nodup : s.blocks.Nodup
  closed : ∀ u ∈ s.finished, ∀ v, g.Edge u v → v ∉ s.fresh
  ordered : g.SuccessorsFirst s.finished

/-- An `Explored` search has no block `fresh` twice. -/
private theorem Explored.nodup_fresh (h : g.Explored s) : s.fresh.Nodup :=
  (List.nodup_append.1 h.nodup).2.1

/-- There are ever fewer `fresh` blocks. -/
private theorem Explored.length_fresh_le (h : g.Explored s') (hadvances : s.Advances s') :
    s'.fresh.length ≤ s.fresh.length :=
  (List.subperm_of_subset h.nodup_fresh hadvances.fresh).length_le

/-- A block that is visited is not `fresh` any more, and is `Open` until it is finished. -/
theorem Explored.enter (h : g.Explored s) (id : BlockId) :
    g.Explored { s with fresh := s.fresh.erase id } where
  nodup := h.nodup.sublist (List.erase_sublist.append_left _)
  closed u hu v hedge hmem := h.closed u hu v hedge (List.erase_subset hmem)
  ordered := h.ordered

/-- The block that is visited is the only one that is newly `Open`. -/
private theorem open_enter (h : g.Open { s with fresh := s.fresh.erase id } b) :
    b = id ∨ g.Open s b := by
  by_cases heq : b = id
  · exact .inl heq
  · refine .inr ⟨h.1, fun hmem => h.2 ?_⟩
    rcases List.mem_append.1 hmem with hmem | hmem
    · exact List.mem_append_left _ hmem
    · exact List.mem_append_right _ ((List.mem_erase_of_ne heq).2 hmem)

/-- A block can be finished once its successors are visited: those that are not finished are `Open`
    and lead back. -/
private theorem Explored.finish (h : g.Explored s)
    (hnodup : ({ s with finished := s.finished ++ [id] } : Search).blocks.Nodup)
    (hvisited : ∀ v, g.Edge id v → v ∉ s.fresh) (hopen : ∀ v, g.Open s v → g.Reaches v id) :
    g.Explored { s with finished := s.finished ++ [id] } where
  nodup := hnodup
  closed u hu := by
    rcases List.mem_append.1 hu with hu | hu
    · exact h.closed u hu
    · exact List.mem_singleton.1 hu ▸ hvisited
  ordered := h.ordered.snoc fun v hedge => by
    -- A successor that is visited but not finished is still being visited.
    by_cases hv : v ∈ s.finished
    · exact .inl hv
    · have hnot : v ∉ s.blocks := fun hmem => (List.mem_append.1 hmem).elim hv (hvisited v hedge)
      exact .inr (hopen v ⟨hedge.target_mem, hnot⟩)

/-- A series of visits keeps a search `Explored` if each visit does, and leaves none of its blocks
    `fresh`. -/
theorem explored_foldl (ids : List BlockId)
    (hvisit : ∀ (s : Search) id, g.Explored s → s.fresh.length ≤ depth →
      (∀ b, g.Open s b → g.Reaches b id) →
      g.Explored (g.visit depth id s) ∧ id ∉ (g.visit depth id s).fresh)
    (hs : g.Explored s) (hdepth : s.fresh.length ≤ depth)
    (hopen : ∀ id ∈ ids, ∀ b, g.Open s b → g.Reaches b id) :
    g.Explored (ids.foldl (fun s id => g.visit depth id s) s) ∧
      ∀ id ∈ ids, id ∉ (ids.foldl (fun s id => g.visit depth id s) s).fresh := by
  induction ids generalizing s with
  | nil => exact ⟨hs, fun id hid => absurd hid List.not_mem_nil⟩
  | cons first ids ih =>
    obtain ⟨hfirst, hrest⟩ := List.forall_mem_cons.1 hopen
    obtain ⟨hexplored, hvisited⟩ := hvisit s first hs hdepth hfirst
    -- A visit ends with the open blocks that it began with.
    have hadvances := g.visit_advances depth s first
    obtain ⟨hall, hnone⟩ := ih hexplored (Nat.le_trans (hexplored.length_fresh_le hadvances) hdepth)
      fun id hid b hb => hrest id hid b ((open_iff_of_advances hadvances).1 hb)
    refine ⟨hall, List.forall_mem_cons.2 ⟨fun hmem => hvisited ?_, hnone⟩⟩
    exact (Search.Advances.foldl (g.visit_advances depth) _ ids).fresh hmem

/-- A `Graph.visit` that can go deep enough keeps a search `Explored`, and its block is not `fresh`
    any more. -/
theorem visit_explored (hs : g.Explored s) (hdepth : s.fresh.length ≤ depth)
    (hopen : ∀ b, g.Open s b → g.Reaches b id) :
    g.Explored (g.visit depth id s) ∧ id ∉ (g.visit depth id s).fresh := by
  induction depth generalizing s id with
  | zero =>
    have hnone : s.fresh = [] := List.length_eq_zero_iff.1 (Nat.le_zero.1 hdepth)
    exact ⟨hs, by simp [visit, hnone]⟩
  | succ depth ih =>
    refine ⟨?_, g.not_mem_fresh_visit hs.nodup id⟩
    have hnodup : (g.visit (depth + 1) id s).blocks.Nodup :=
      (g.visit_advances (depth + 1) s id).blocks.nodup_iff.2 hs.nodup
    rw [visit] at hnodup ⊢
    by_cases hfresh : id ∈ s.fresh
    · rw [if_pos hfresh] at hnodup ⊢
      have hlength : (s.fresh.erase id).length ≤ depth := by
        rw [List.length_erase_of_mem hfresh]
        omega
      -- The block itself is open now, and reaches its successors as the other open blocks do.
      have hreaches : ∀ b, g.Open { s with fresh := s.fresh.erase id } b → g.Reaches b id :=
        fun b hb => (open_enter hb).elim (fun heq => heq ▸ .refl) (hopen b)
      obtain ⟨hbelow, hvisited⟩ := explored_foldl (g.successors id) (fun s id => ih)
        (hs.enter id) hlength
        fun next hnext b hb => (hreaches b hb).tail ((g.mem_successors id next).1 hnext)
      have hadvances := Search.Advances.foldl (g.visit_advances depth)
        { s with fresh := s.fresh.erase id } (g.successors id)
      exact hbelow.finish hnodup (fun v hedge => hvisited v ((g.mem_successors id v).2 hedge))
        fun v hv => hreaches v ((open_iff_of_advances hadvances).1 hv)
    · rw [if_neg hfresh]
      exact hs

/-- A search is `Explored` before the first visit. -/
private theorem explored_start (g : Graph) : g.Explored ⟨[], g.ids⟩ where
  nodup := g.nodup_ids
  closed _ hu := absurd hu List.not_mem_nil
  ordered := .nil

/-- No block is `Open` before the first visit. -/
private theorem not_open_start (g : Graph) (b : BlockId) : ¬g.Open ⟨[], g.ids⟩ b := fun h => h.2 h.1

/-- `Graph.ids` are as many as `Graph.size`. -/
theorem length_ids (g : Graph) : g.ids.length = g.size := List.length_map _

/-! ## What the entry reaches -/

/-- A series of visits finishes nothing but what its blocks reach, if this holds of each
    `Graph.visit`. -/
private theorem reaches_of_mem_finished_foldl (ids : List BlockId)
    (hvisit : ∀ (s : Search) id, b ∈ (g.visit depth id s).finished →
      b ∈ s.finished ∨ g.Reaches id b)
    (h : b ∈ (ids.foldl (fun s id => g.visit depth id s) s).finished) :
    b ∈ s.finished ∨ ∃ id ∈ ids, g.Reaches id b := by
  induction ids generalizing s with
  | nil => exact .inl h
  | cons first ids ih =>
    rcases ih h with hmem | ⟨id, hid, hreaches⟩
    · exact (hvisit s first hmem).imp_right fun hreaches => ⟨first, List.mem_cons_self, hreaches⟩
    · exact .inr ⟨id, List.mem_cons_of_mem first hid, hreaches⟩

/-- `Graph.visit` finishes nothing but what its block reaches. -/
private theorem reaches_of_mem_finished_visit (h : b ∈ (g.visit depth id s).finished) :
    b ∈ s.finished ∨ g.Reaches id b := by
  induction depth generalizing s id with
  | zero => exact .inl h
  | succ depth ih =>
    rw [visit] at h
    split at h
    · rcases List.mem_append.1 h with h | h
      · -- What is finished below a successor is reached through it.
        rcases reaches_of_mem_finished_foldl (g.successors id) (fun s id => ih) h with
          hmem | ⟨next, hnext, hreaches⟩
        · exact .inl hmem
        · exact .inr (hreaches.head ((g.mem_successors id next).1 hnext))
      · exact .inr (List.mem_singleton.1 h ▸ .refl)
    · exact .inl h

/-- `searchEntry` finishes exactly the blocks that the entry reaches. -/
theorem mem_searchEntry_finished : b ∈ g.searchEntry.finished ↔ g.Reaches g.entry b := by
  constructor
  · exact fun h => (reaches_of_mem_finished_visit h).resolve_left List.not_mem_nil
  · intro h
    obtain ⟨hexplored, hentry⟩ : g.Explored g.searchEntry ∧ g.entry ∉ g.searchEntry.fresh :=
      visit_explored g.explored_start (Nat.le_of_eq g.length_ids) fun b hb =>
        absurd hb (g.not_open_start b)
    -- No block is open after the search, so a block that is not fresh is finished.
    have hfinished (v : BlockId) (hv : v ∈ g.ids)
        (hfresh : v ∉ g.searchEntry.fresh) : v ∈ g.searchEntry.finished := by
      have hblocks : v ∈ g.searchEntry.blocks :=
        (g.visit_advances g.size ⟨[], g.ids⟩ g.entry).blocks.mem_iff.2 hv
      exact (List.mem_append.1 hblocks).resolve_right hfresh
    -- Being finished passes along edges, from the entry on.
    exact h.closed (fun e hedge hu =>
        hfinished _ (g.mem_of_edge e hedge).2 (hexplored.closed _ hu _ hedge))
      (hfinished _ g.entry_mem hentry)

/-! ## The order -/

/-- A search that has finished other blocks before (`Search.behind`) goes on as it would without
    them. -/
private theorem visit_behind (depth : Nat) (s : Search) (id : BlockId) :
    g.visit depth id (s.behind before) = (g.visit depth id s).behind before := by
  induction depth generalizing s id with
  | zero => rfl
  | succ depth ih =>
    rw [visit, visit]
    by_cases hfresh : id ∈ s.fresh
    · rw [if_pos hfresh, if_pos (show id ∈ (s.behind before).fresh from hfresh)]
      -- The successors are visited one after the other, behind the same blocks.
      have hbelow : (g.successors id).foldl (fun s next => g.visit depth next s)
            (Search.behind before { s with fresh := s.fresh.erase id }) =
          ((g.successors id).foldl (fun s next => g.visit depth next s)
            { s with fresh := s.fresh.erase id }).behind before :=
        List.foldl_hom (Search.behind before) fun s next => ih s next
      simp only [Search.behind] at hbelow ⊢
      rw [hbelow, List.append_assoc]
    · rw [if_neg hfresh, if_neg (show id ∉ (s.behind before).fresh from hfresh)]

/-- `searchEntry` and `searchRest` are one search that visits the entry first and then all
    blocks. -/
private theorem backwards_eq (g : Graph) :
    g.backwards =
      ((g.entry :: g.ids).foldl (fun s id => g.visit g.size id s) ⟨[], g.ids⟩).finished := by
  have hrest : g.ids.foldl (fun s id => g.visit g.size id s)
      (Search.behind g.searchEntry.finished ⟨[], g.searchEntry.fresh⟩) =
        g.searchRest.behind g.searchEntry.finished :=
    List.foldl_hom (Search.behind g.searchEntry.finished) fun s id => visit_behind g.size s id
  have hentry : Search.behind g.searchEntry.finished ⟨[], g.searchEntry.fresh⟩ = g.searchEntry := by
    rw [Search.behind, List.append_nil]
  rw [hentry] at hrest
  exact (congrArg Search.finished hrest).symm

/-- `Graph.backwards` has `SuccessorsFirst`. -/
private theorem successorsFirst_backwards (g : Graph) : g.SuccessorsFirst g.backwards := by
  rw [backwards_eq]
  exact (explored_foldl _ (fun _ _ => visit_explored) g.explored_start (Nat.le_of_eq g.length_ids)
    fun _ _ b hb => absurd hb (g.not_open_start b)).1.ordered

/-- With `SuccessorsFirst` a successor that does not lead back stands before. -/
private theorem SuccessorsFirst.idxOf_lt (h : g.SuccessorsFirst order) (hnodup : order.Nodup)
    (hu : u ∈ order) (hedge : g.Edge u v) (hback : ¬g.Reaches v u) :
    order.idxOf v < order.idxOf u := by
  induction h with
  | nil => exact absurd hu List.not_mem_nil
  | @snoc order b h hb ih =>
    obtain ⟨hnodup, -, -⟩ := List.nodup_append.1 hnodup
    by_cases hmem : u ∈ order
    · -- Both stand in the earlier part, where nothing has changed.
      have hlt := ih hnodup hmem
      have hv : v ∈ order := List.idxOf_lt_length_iff.1
        (Nat.lt_trans hlt (List.idxOf_lt_length_of_mem hmem))
      rwa [List.idxOf_append_of_mem hmem, List.idxOf_append_of_mem hv]
    · -- `u` is the last, and it came after its successors.
      obtain rfl : u = b := by simpa [hmem] using hu
      have hv : v ∈ order := (hb v hedge).resolve_right hback
      rw [List.idxOf_append_of_mem hv, List.idxOf_append_of_notMem hmem]
      exact Nat.lt_add_right _ (List.idxOf_lt_length_of_mem hv)

/-- In `Graph.backwards` the target of an edge that does not lie on a cycle comes first. -/
theorem idxOf_backwards_lt (hedge : g.Edge u v) (hback : ¬g.Reaches v u) :
    g.backwards.idxOf v < g.backwards.idxOf u :=
  g.successorsFirst_backwards.idxOf_lt (g.backwards_perm.nodup_iff.2 g.nodup_ids)
    (g.backwards_perm.mem_iff.2 hedge.source_mem) hedge hback

/-- `Graph.backwards` has the blocks of the graph, each once, and a successor that does not lead
    back comes first. -/
theorem backwards_successors_first (g : Graph) :
    g.backwards.Nodup ∧ (∀ b, b ∈ g.backwards ↔ g.contains b = true) ∧
      ∀ u v, g.Edge u v → ¬g.Reaches v u → g.backwards.idxOf v < g.backwards.idxOf u := by
  refine ⟨g.backwards_perm.nodup_iff.2 g.nodup_ids, fun b => ?_, fun u v => idxOf_backwards_lt⟩
  rw [g.backwards_perm.mem_iff, mem_ids_iff_contains]

/-- The graph of block 0, other blocks and edges, with nothing to do in the blocks. -/
def idle (others : List BlockId) (edges : List (BlockId × BlockId)) : Graph :=
  let block : Block := ⟨"idle", []⟩
  (build (0, block) (others.map fun id => (id, block)) edges).toOption.getD (singleton 0 block)

/-- A loop behind the entry, and another one that the entry does not reach but that leads to the
    first. -/
def twoLoops : Graph :=
  idle [3, 1, 2, 5, 4] [(0, 1), (1, 2), (2, 1), (2, 3), (4, 5), (5, 4), (5, 2)]

/-- In `twoLoops` the edge from the one loop to the other lies on no cycle. -/
theorem backwards_successors_first_twoLoops :
    twoLoops.Edge 5 2 ∧ ¬twoLoops.Reaches 2 5 ∧
      twoLoops.backwards.idxOf 2 < twoLoops.backwards.idxOf 5 := by
  have hedge : twoLoops.Edge 5 2 := by decide +kernel
  have hback : ¬twoLoops.Reaches 2 5 := fun h =>
    absurd (h.closed (P := (· ∈ [1, 2, 3])) (by decide +kernel) (by decide)) (by decide)
  exact ⟨hedge, hback, (backwards_successors_first twoLoops).2.2 5 2 hedge hback⟩

/-! ## Cycles -/

/-- `List.idxOf?` finds the position of a member. -/
theorem idxOf?_of_mem (h : b ∈ order) : order.idxOf? b = some (order.idxOf b) := by
  obtain ⟨i, hi⟩ := Option.isSome_iff_exists.1 (List.isSome_idxOf?.2 h)
  rw [List.idxOf_eq_getD_idxOf?, hi, Option.getD_some]

/-- Where the ends of the edges are found, `falls?` has an answer for each. -/
private theorem allM_falls? {edges : List (BlockId × BlockId)}
    (h : ∀ e ∈ edges, e.1 ∈ order ∧ e.2 ∈ order) :
    edges.allM (falls? order) = some (edges.all fun e => order.idxOf e.2 < order.idxOf e.1) := by
  induction edges with
  | nil => rfl
  | cons e edges ih =>
    obtain ⟨⟨hsource, htarget⟩, hedges⟩ := List.forall_mem_cons.1 h
    have hfalls : falls? order e = some (decide (order.idxOf e.2 < order.idxOf e.1)) := by
      simp [falls?, idxOf?_of_mem hsource, idxOf?_of_mem htarget]
    rw [List.allM_cons, hfalls, ih hedges, List.all_cons]
    cases decide (order.idxOf e.2 < order.idxOf e.1) <;> rfl

/-- `edgesFall?` finds the ends of every edge in `Graph.backwards`, which has every block. -/
private theorem edgesFall?_eq (g : Graph) :
    g.edgesFall? = some (g.edges.all fun e => g.backwards.idxOf e.2 < g.backwards.idxOf e.1) :=
  allM_falls? fun e he =>
    ⟨g.backwards_perm.mem_iff.2 (g.mem_of_edge e he).1,
      g.backwards_perm.mem_iff.2 (g.mem_of_edge e he).2⟩

/-- If every edge leads back in the order, positions go down along a path. -/
private theorem idxOf_lt_of_transGen (h : ∀ e ∈ g.edges, order.idxOf e.2 < order.idxOf e.1)
    (hpath : Relation.TransGen g.Edge u v) : order.idxOf v < order.idxOf u := by
  induction hpath with
  | single hedge => exact h _ hedge
  | tail _ hedge ih => exact Nat.lt_trans (h _ hedge) ih

/-- `isAcyclic` holds if every edge leads back in `Graph.backwards`. -/
private theorem isAcyclic_eq (g : Graph) :
    g.isAcyclic = g.edges.all fun e => g.backwards.idxOf e.2 < g.backwards.idxOf e.1 := by
  rw [Bool.eq_iff_iff, isAcyclic, decide_eq_true_iff, edgesFall?_eq, Option.some.injEq]

/-- `isAcyclic` holds of the graphs without a cycle: an edge that does not lead back in the order
    closes one, and a cycle has such an edge. -/
theorem isAcyclic_iff (g : Graph) : g.isAcyclic = true ↔ ∀ b, ¬g.OnCycle b := by
  rw [isAcyclic_eq]
  simp only [List.all_eq_true, decide_eq_true_iff]
  constructor
  · exact fun h b hcycle => Nat.lt_irrefl _ (idxOf_lt_of_transGen h hcycle)
  · intro h e he
    exact idxOf_backwards_lt he fun hback => h e.1 (Relation.TransGen.head' he hback)

/-- `isAcyclic` finds the positions of all blocks that it asks for, and it accepts exactly the
    graphs without a cycle, whether the entry reaches it or not. -/
theorem isAcyclic_exact (g : Graph) :
    g.edgesFall? = some g.isAcyclic ∧ (g.isAcyclic = true ↔ ∀ b, ¬g.OnCycle b) :=
  ⟨g.isAcyclic_eq ▸ g.edgesFall?_eq, g.isAcyclic_iff⟩

/-- A cycle counts for `isAcyclic` although the entry does not reach it. -/
theorem isAcyclic_exact_unreached :
    (idle [1] [(1, 1)]).edgesFall? = some false ∧ ∃ b, (idle [1] [(1, 1)]).OnCycle b := by
  have hfalse : (idle [1] [(1, 1)]).isAcyclic = false := by decide +kernel
  obtain ⟨hanswer, hiff⟩ := isAcyclic_exact (idle [1] [(1, 1)])
  refine ⟨hfalse ▸ hanswer, not_forall_not.1 fun hnone => ?_⟩
  rw [hiff.2 hnone] at hfalse
  cases hfalse

end Graph

end Warrant
