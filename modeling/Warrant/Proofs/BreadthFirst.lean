import Warrant.Proofs.BlockOrder
import Warrant.Proofs.Paths

/-!
# What a breadth-first search takes

A search goes on to fresh blocks only, and a block is not fresh any more once it is met.  This hides
nothing: whatever the queue leads to along fresh blocks (`Frontier.Leads`) is taken, since a way
through a block that has just been met can start at that block instead, which is in the queue now.

* `Frontier.leads_cons_iff`: what the queue leads to before and after a block is taken from it.
* `mem_flood_iff`: exactly what the queue leads to is taken; `nodup_flood`: each block once.
* `Graph.mem_reachable`: the search from the entry takes what the entry reaches.
* `Graph.nonEmptySuccessors_exact`: the search through empty blocks takes what a path through empty
  blocks leads to.
-/

namespace Warrant

variable {next : BlockId → List BlockId} {f : Frontier} {b id : BlockId}
  {ids queue fresh : List BlockId}

/-! ## Meeting blocks -/

namespace Frontier

/-- The blocks that can still be taken, from the `queue` or when they are met. -/
def blocks (f : Frontier) : List BlockId := f.queue ++ f.fresh

/-- `Frontier.meet` puts a `fresh` block in the queue. -/
private theorem mem_queue_meet : b ∈ (f.meet id).queue ↔ b ∈ f.queue ∨ b = id ∧ b ∈ f.fresh := by
  unfold meet
  by_cases hfresh : id ∈ f.fresh
  · rw [if_pos hfresh, List.mem_append, List.mem_singleton]
    exact or_congr_right ⟨fun h => ⟨h, h ▸ hfresh⟩, And.left⟩
  · rw [if_neg hfresh, or_iff_left]
    rintro ⟨rfl, hb⟩
    exact hfresh hb

/-- After `Frontier.meet` the block is not `fresh` any more. -/
private theorem mem_fresh_meet : b ∈ (f.meet id).fresh ↔ b ∈ f.fresh ∧ b ≠ id := by
  unfold meet
  by_cases hfresh : id ∈ f.fresh
  · rw [if_pos hfresh, List.mem_filter, decide_eq_true_iff]
  · rw [if_neg hfresh, iff_self_and]
    rintro hb rfl
    exact hfresh hb

/-- The blocks in the queue after `meetAll` are those that were there and those that were `fresh`
    and are met. -/
private theorem mem_queue_meetAll :
    b ∈ (f.meetAll ids).queue ↔ b ∈ f.queue ∨ b ∈ ids ∧ b ∈ f.fresh := by
  induction ids generalizing f with
  | nil => simp [meetAll]
  | cons id ids ih =>
    rw [meetAll, List.foldl_cons, ← meetAll, ih, mem_queue_meet, mem_fresh_meet, List.mem_cons]
    by_cases hid : b = id <;> simp [hid]

/-- The blocks that stay `fresh` after `meetAll` are those that are not met. -/
private theorem mem_fresh_meetAll : b ∈ (f.meetAll ids).fresh ↔ b ∈ f.fresh ∧ b ∉ ids := by
  induction ids generalizing f with
  | nil => simp [meetAll]
  | cons id ids ih =>
    rw [meetAll, List.foldl_cons, ← meetAll, ih, mem_fresh_meet, List.mem_cons, not_or, and_assoc]

/-- `meetAll` adds no blocks. -/
private theorem blocks_meetAll_subset (f : Frontier) (ids : List BlockId) :
    (f.meetAll ids).blocks ⊆ f.blocks := by
  intro b hb
  rcases List.mem_append.1 hb with hb | hb
  · rcases mem_queue_meetAll.1 hb with hb | hb
    · exact List.mem_append_left _ hb
    · exact List.mem_append_right _ hb.2
  · exact List.mem_append_right _ (mem_fresh_meetAll.1 hb).1

/-- `Frontier.meet` moves a block and repeats none. -/
private theorem nodup_meet (h : f.blocks.Nodup) (id : BlockId) : (f.meet id).blocks.Nodup := by
  unfold meet
  split
  · next hfresh =>
    obtain ⟨hqueue, hnodup, hapart⟩ := List.nodup_append.1 h
    rw [blocks, List.append_assoc]
    refine List.nodup_append.2 ⟨hqueue, List.nodup_cons.2 ⟨by simp, hnodup.filter _⟩,
      fun a ha b hb => ?_⟩
    rcases List.mem_cons.1 hb with rfl | hb
    · exact hapart a ha b hfresh
    · exact hapart a ha b (List.mem_filter.1 hb).1
  · exact h

/-- `meetAll` repeats no block. -/
private theorem nodup_meetAll (h : f.blocks.Nodup) (ids : List BlockId) :
    (f.meetAll ids).blocks.Nodup := by
  induction ids generalizing f with
  | nil => exact h
  | cons id ids ih => exact ih (nodup_meet h id)

/-! ## What the queue leads to -/

/-- Some block in the `queue` leads to `b` along `fresh` blocks. -/
def Leads (next : BlockId → List BlockId) (f : Frontier) (b : BlockId) : Prop :=
  ∃ start ∈ f.queue, Relation.ReflTransGen (fun u v => v ∈ next u ∧ v ∈ f.fresh) start b

/-- When a block is taken from the queue and those that come next are met (`meetAll`), the queue
    still `Leads` to all other blocks that it led to. -/
theorem leads_cons_iff :
    Leads next ⟨id :: queue, fresh⟩ b ↔
      b = id ∨ Leads next (meetAll ⟨queue, fresh⟩ (next id)) b := by
  constructor
  · rintro ⟨start, hstart, hchain⟩
    induction hchain with
    | refl =>
      refine (List.mem_cons.1 hstart).imp_right fun hstart => ?_
      exact ⟨start, mem_queue_meetAll.2 (.inl hstart), .refl⟩
    | @tail c b _ hstep ih =>
      right
      by_cases hmet : b ∈ next id
      · -- A block that is met waits in the queue itself.
        exact ⟨b, mem_queue_meetAll.2 (.inr ⟨hmet, hstep.2⟩), .refl⟩
      · rcases ih with rfl | ⟨start', hstart', hchain'⟩
        · exact absurd hstep.1 hmet
        · exact ⟨start', hstart', hchain'.tail ⟨hstep.1, mem_fresh_meetAll.2 ⟨hstep.2, hmet⟩⟩⟩
  · rintro (rfl | ⟨start, hstart, hchain⟩)
    · exact ⟨b, List.mem_cons_self, .refl⟩
    · have hchain' : Relation.ReflTransGen (fun u v => v ∈ next u ∧ v ∈ fresh) start b :=
        hchain.lift (fun b => b) fun u v hstep => ⟨hstep.1, (mem_fresh_meetAll.1 hstep.2).1⟩
      -- A way from a block that was met is a way from the one that was taken, one step longer.
      rcases mem_queue_meetAll.1 hstart with hstart | hstart
      · exact ⟨start, List.mem_cons_of_mem id hstart, hchain'⟩
      · exact ⟨id, List.mem_cons_self, .head hstart hchain'⟩

end Frontier

open Frontier

/-- `flood` takes exactly the blocks that its queue `Leads` to. -/
theorem mem_flood_iff : b ∈ flood next f ↔ f.Leads next b := by
  fun_induction flood next f with
  | case1 fresh => simp [Leads]
  | case2 id queue fresh ih => rw [List.mem_cons, leads_cons_iff, ih]

/-- `flood` takes only blocks of the frontier. -/
private theorem flood_subset (next : BlockId → List BlockId) (f : Frontier) :
    flood next f ⊆ f.blocks := by
  fun_induction flood next f with
  | case1 fresh => exact List.nil_subset _
  | case2 id queue fresh ih =>
    exact List.cons_subset_cons id (List.Subset.trans ih (blocks_meetAll_subset ⟨queue, fresh⟩ _))

/-- `flood` takes no block twice. -/
theorem nodup_flood (h : f.blocks.Nodup) : (flood next f).Nodup := by
  fun_induction flood next f with
  | case1 fresh => exact .nil
  | case2 id queue fresh ih =>
    obtain ⟨hid, hrest⟩ : id ∉ (Frontier.mk queue fresh).blocks ∧
        (Frontier.mk queue fresh).blocks.Nodup :=
      List.nodup_cons.1 h
    -- What is taken later is still in the queue or fresh, and the block that is taken now is
    -- neither.
    have hlater : flood next (meetAll ⟨queue, fresh⟩ (next id)) ⊆
        (Frontier.mk queue fresh).blocks :=
      List.Subset.trans (flood_subset _ _) (blocks_meetAll_subset _ _)
    exact List.nodup_cons.2 ⟨fun hmem => hid (hlater hmem), ih (nodup_meetAll hrest _)⟩

namespace Graph

variable {g : Graph} {u v start : BlockId} {p : List BlockId}

/-! ## Searches in a graph -/

/-- `floodFrom` takes no block twice. -/
private theorem nodup_floodFrom (g : Graph) (next : BlockId → List BlockId) (start : BlockId) :
    (g.floodFrom next start).Nodup :=
  nodup_flood (List.nodup_cons.2 ⟨by simp, g.nodup_ids.filter _⟩)

/-- As all blocks but the start are `fresh`, `floodFrom` takes whatever the start leads to. -/
private theorem mem_floodFrom_iff (hnext : ∀ u, next u ⊆ g.ids) :
    b ∈ g.floodFrom next start ↔ Relation.ReflTransGen (fun u v => v ∈ next u) start b := by
  rw [floodFrom, mem_flood_iff]
  constructor
  · rintro ⟨start', hstart', hchain⟩
    obtain rfl := List.mem_singleton.1 hstart'
    exact hchain.lift (fun b => b) fun u v hstep => hstep.1
  · intro hchain
    refine ⟨start, List.mem_singleton_self start, ?_⟩
    induction hchain with
    | refl => exact .refl
    | @tail u v _ hstep ih =>
      -- A way that comes back to the start need not have left it.
      by_cases hback : v = start
      · exact hback ▸ .refl
      · exact ih.tail ⟨hstep, List.mem_filter.2 ⟨hnext u hstep, decide_eq_true hback⟩⟩

/-- `Graph.successors` are blocks of the graph. -/
private theorem successors_subset (g : Graph) (u : BlockId) : g.successors u ⊆ g.ids := fun v hv =>
  Edge.target_mem ((g.mem_successors u v).1 hv)

/-- `Graph.reachable` has exactly what the entry reaches. -/
theorem mem_reachable : b ∈ g.reachable ↔ g.Reaches g.entry b := by
  have htaken : b ∈ g.floodFrom g.successors g.entry ↔ g.Reaches g.entry b := by
    rw [mem_floodFrom_iff g.successors_subset]
    simp only [mem_successors]
    rfl
  rw [reachable, List.mem_filter, decide_eq_true_iff, htaken, and_iff_right_iff_imp]
  intro h
  cases h with
  | refl => exact g.entry_mem
  | tail _ hedge => exact hedge.target_mem

/-! ## Through empty blocks -/

/-- `b` is a block without commands. -/
def EmptyAt (g : Graph) (b : BlockId) : Prop :=
  ∃ block, g.block? b = some block ∧ block.commands = []

/-- `b` is a block with commands. -/
def NonEmptyAt (g : Graph) (b : BlockId) : Prop :=
  ∃ block, g.block? b = some block ∧ block.commands ≠ []

/-- `isEmptyBlock` tests `EmptyAt`. -/
private theorem isEmptyBlock_iff : g.isEmptyBlock b = true ↔ g.EmptyAt b := by
  simp [isEmptyBlock, EmptyAt, Block.isEmpty, Option.any_eq_true]

/-- A block of the graph is `EmptyAt` or `NonEmptyAt` its id. -/
private theorem nonEmptyAt_iff (hb : b ∈ g.ids) : g.NonEmptyAt b ↔ g.isEmptyBlock b = false := by
  obtain ⟨block, hblock⟩ := Option.isSome_iff_exists.1 ((g.blocks.mem_keys b).1 hb)
  have hblock : g.block? b = some block := hblock
  simp [NonEmptyAt, isEmptyBlock, hblock, Block.isEmpty]

/-- `beyond` has the successors of the start and of empty blocks, and nothing after other blocks. -/
private theorem mem_beyond : v ∈ g.beyond start u ↔ (u = start ∨ g.EmptyAt u) ∧ g.Edge u v := by
  unfold beyond
  by_cases hthrough : u = start ∨ g.EmptyAt u
  · rw [if_pos (by simpa [isEmptyBlock_iff] using hthrough), mem_successors, and_iff_right hthrough]
    rfl
  · rw [if_neg (by simpa [isEmptyBlock_iff] using hthrough)]
    exact iff_of_false List.not_mem_nil fun h => hthrough h.1

/-- `beyond` has blocks of the graph only. -/
private theorem beyond_subset (g : Graph) (start u : BlockId) : g.beyond start u ⊆ g.ids :=
  fun _ hv => (mem_beyond.1 hv).2.target_mem

/-- A path of at least one edge that passes only blocks `EmptyAt` their ids on the way. -/
def PassesEmpty (g : Graph) (u v : BlockId) : Prop :=
  ∃ between, g.Path u v (u :: between ++ [v]) ∧ ∀ b ∈ between, g.EmptyAt b

/-- A `Path` passes its end. -/
theorem Path.end_mem (h : g.Path u v p) : v ∈ p := by
  cases h with
  | start => exact List.mem_singleton_self u
  | step => exact List.mem_append_right _ (List.mem_singleton_self v)

/-- To what a search `beyond` empty blocks takes, apart from its start, a path leads that
    `PassesEmpty` blocks. -/
private theorem passesEmpty_of_chain
    (h : Relation.ReflTransGen (fun u v => v ∈ g.beyond start u) start v) :
    v = start ∨ g.PassesEmpty start v := by
  induction h with
  | refl => exact .inl rfl
  | @tail u v _ hstep ih =>
    obtain ⟨hthrough, hedge⟩ := mem_beyond.1 hstep
    right
    -- A search goes on only from its start and from empty blocks.
    by_cases hstart : u = start
    · subst hstart
      exact ⟨[], .step .start hedge, by simp⟩
    · obtain ⟨between, hpath, hempty⟩ := ih.resolve_left hstart
      refine ⟨between ++ [u], ?_, fun b hb => ?_⟩
      · rw [← List.cons_append]
        exact hpath.step hedge
      · rcases List.mem_append.1 hb with hb | hb
        · exact hempty b hb
        · exact List.mem_singleton.1 hb ▸ hthrough.resolve_left hstart

/-- A path that passes empty blocks only can be followed with `beyond`, also where it comes back to
    its start. -/
private theorem chain_of_path (h : g.Path start v p)
    (hempty : ∀ b ∈ p.dropLast, b = start ∨ g.EmptyAt b) :
    Relation.ReflTransGen (fun u v => v ∈ g.beyond start u) start v := by
  induction h with
  | start => exact .refl
  | @step u w p hpath hedge ih =>
    -- With one more edge the block where the path ended before is passed as well.
    rw [List.dropLast_concat] at hempty
    have hchain := ih fun b hb => hempty b (List.dropLast_subset p hb)
    exact hchain.tail (mem_beyond.2 ⟨hempty u hpath.end_mem, hedge⟩)

/-- `floodFrom` with `beyond` takes the start and what a path leads to that `PassesEmpty` blocks. -/
private theorem mem_floodFrom_beyond :
    v ∈ g.floodFrom (g.beyond start) start ↔ v = start ∨ g.PassesEmpty start v := by
  rw [mem_floodFrom_iff (g.beyond_subset start)]
  refine ⟨passesEmpty_of_chain, ?_⟩
  rintro (rfl | ⟨between, hpath, hempty⟩)
  · exact .refl
  · refine chain_of_path hpath fun b hb => ?_
    rw [List.dropLast_concat] at hb
    exact (List.mem_cons.1 hb).imp_right (hempty b)

/-- A path that `PassesEmpty` blocks leads to a block of the graph, as it has an edge. -/
theorem PassesEmpty.target_mem (h : g.PassesEmpty u v) : v ∈ g.ids := by
  obtain ⟨between, hpath, -⟩ := h
  generalize hp : u :: between ++ [v] = p at hpath
  cases hpath with
  | start => simp at hp
  | step _ hedge => exact hedge.target_mem

/-- The search of `nonEmptySuccessors` takes every block at most once, so it ends.  What it finds,
    without repetition, are exactly the non-empty blocks other than its start to which a path of at
    least one edge leads that passes empty blocks only. -/
theorem nonEmptySuccessors_exact (g : Graph) (id : BlockId) :
    (g.floodFrom (g.beyond id) id).Nodup ∧
    (g.nonEmptySuccessors id).Nodup ∧
    ∀ b, b ∈ g.nonEmptySuccessors id ↔
      b ≠ id ∧ g.NonEmptyAt b ∧ ∃ between, g.Path id b (id :: between ++ [b]) ∧
        ∀ c ∈ between, g.EmptyAt c := by
  refine ⟨g.nodup_floodFrom _ id, (g.nodup_floodFrom _ id).filter _, fun b => ?_⟩
  have htaken : b ∈ g.nonEmptySuccessors id ↔
      (b = id ∨ g.PassesEmpty id b) ∧ b ≠ id ∧ g.isEmptyBlock b = false := by
    simp [nonEmptySuccessors, mem_floodFrom_beyond]
  rw [htaken]
  constructor
  · rintro ⟨hpasses, hne, hfull⟩
    have hpasses := hpasses.resolve_left hne
    exact ⟨hne, (nonEmptyAt_iff hpasses.target_mem).2 hfull, hpasses⟩
  · rintro ⟨hne, hfull, hpasses⟩
    exact ⟨.inr hpasses, hne, (nonEmptyAt_iff (PassesEmpty.target_mem hpasses)).1 hfull⟩

/-- Two empty blocks in a loop that leads on to block 3 and back to the start. -/
def emptyLoop : Graph :=
  let empty : Block := ⟨"empty", []⟩
  let full : Block := ⟨"full", [.havoc ["x"]]⟩
  (build (0, full) [(1, empty), (2, empty), (3, full)]
    [(0, 1), (1, 2), (2, 1), (2, 0), (2, 3), (3, 3)]).toOption.getD (singleton 0 full)

/-- In `emptyLoop` block 3 is found through the loop, and the start is not, although empty blocks
    lead back to it. -/
theorem nonEmptySuccessors_exact_emptyLoop :
    emptyLoop.nonEmptySuccessors 0 = [3] ∧ emptyLoop.NonEmptyAt 3 ∧
      ∃ between, emptyLoop.Path 0 3 (0 :: between ++ [3]) ∧ ∀ c ∈ between, emptyLoop.EmptyAt c := by
  have hfound : emptyLoop.nonEmptySuccessors 0 = [3] := by decide +kernel
  have hmem := ((nonEmptySuccessors_exact emptyLoop 0).2.2 3).1 (hfound ▸ List.mem_singleton_self 3)
  exact ⟨hfound, hmem.2⟩

end Graph

end Warrant
