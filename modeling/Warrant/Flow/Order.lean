import Warrant.Flow.Graph

/-! # Orders of the blocks of a graph

Blocks are ordered by a depth-first search that starts at the entry and then, for the blocks that it
has not come to, at these in ascending order.  A block is finished once all its successors have been
visited.

* `Graph.backwards` lists the blocks as they are finished: every block after its successors, as far
  as edges that close a cycle allow.
* `Graph.forward` lists the blocks that the entry reaches first, and each of the two groups in
  reverse, so that blocks come before their successors.  A block's position in it is its label.
* `Graph.isAcyclic` tells by the positions in `Graph.backwards` whether there is no cycle.

Two questions are answered by a breadth-first search, `flood`, which lists the blocks in the order
in which it takes them from its queue.

* `Graph.reachable` are the blocks that it takes when it starts at the entry, ascending.
* `Graph.nonEmptySuccessors` are the non-empty blocks that it takes when it goes on behind empty
  ones only. -/

namespace Warrant

/-- The state of a depth-first search: the blocks that are `finished`, in that order, and the
    `fresh` ones, which have not been visited. -/
structure Search where
  finished : List BlockId
  fresh : List BlockId
  deriving Repr

namespace Graph

/-- Visit the block `id`, if it is `fresh`, and what it leads to.  The search goes at most `depth`
    blocks deep; as a block is no longer fresh while its successors are visited, the number of fresh
    blocks is deep enough. -/
def visit (g : Graph) : (depth : Nat) → BlockId → Search → Search
  | 0, _, s => s
  | depth + 1, id, s =>
    if id ∈ s.fresh then
      let below := (g.successors id).foldl (fun s next => g.visit depth next s)
        { s with fresh := s.fresh.erase id }
      { below with finished := below.finished ++ [id] }
    else s

/-- The search from the `entry`. -/
def searchEntry (g : Graph) : Search := g.visit g.size g.entry ⟨[], g.ids⟩

/-- The search among the blocks that `searchEntry` leaves `fresh`. -/
def searchRest (g : Graph) : Search :=
  g.ids.foldl (fun s id => g.visit g.size id s) ⟨[], g.searchEntry.fresh⟩

/-- All blocks in the order in which `searchEntry` and then `searchRest` finish them. -/
def backwards (g : Graph) : List BlockId := g.searchEntry.finished ++ g.searchRest.finished

/-- All blocks, those that the `entry` reaches first, each before its successors where cycles
    allow. -/
def forward (g : Graph) : List BlockId :=
  g.searchEntry.finished.reverse ++ g.searchRest.finished.reverse

/-- The position of `id` in the order `forward`.  The entry is at 0. -/
def label? (g : Graph) (id : BlockId) : Option Nat := g.forward.idxOf? id

/-- Whether the edge `e` leads to a block that stands before its source in `order`.  Both have to
    stand in it. -/
def falls? (order : List BlockId) (e : BlockId × BlockId) : Option Bool := do
  let target ← order.idxOf? e.2
  let source ← order.idxOf? e.1
  return target < source

/-- Whether every edge leads to a block that was finished before its source (`falls?`), up to the
    first that does not. -/
def edgesFall? (g : Graph) : Option Bool :=
  let order := g.backwards
  g.edges.allM (falls? order)

/-- Whether the graph has no cycle, by the positions in `backwards`. -/
def isAcyclic (g : Graph) : Bool := g.edgesFall? = some true

end Graph

/-! ## Breadth first -/

/-- The state of a breadth-first search: the `queue` of blocks that wait to be taken, and the
    `fresh` ones, which have not been met. -/
structure Frontier where
  queue : List BlockId
  fresh : List BlockId
  deriving Repr

namespace Frontier

/-- Meet the block `id`.  One that is `fresh` has to wait, behind the others. -/
def meet (f : Frontier) (id : BlockId) : Frontier :=
  if id ∈ f.fresh then ⟨f.queue ++ [id], f.fresh.filter (· ≠ id)⟩ else f

/-- `meet` several blocks, one after the other. -/
def meetAll (f : Frontier) (ids : List BlockId) : Frontier := ids.foldl meet f

/-- The number of blocks that can still be taken, from `queue` or `fresh`. -/
def size (f : Frontier) : Nat := f.queue.length + f.fresh.length

/-- `meet` moves a block from `fresh` to `queue` at most. -/
private theorem size_meet_le (f : Frontier) (id : BlockId) : (f.meet id).size ≤ f.size := by
  unfold meet
  split
  · next hfresh =>
    have hlt : (f.fresh.filter (· ≠ id)).length < f.fresh.length :=
      List.length_filter_lt_length_iff_exists.2 ⟨id, hfresh, by simp⟩
    simp only [size, List.length_append, List.length_singleton]
    omega
  · exact Nat.le_refl _

/-- `meetAll` adds no blocks either, so `flood` has fewer left after each one that it takes. -/
private theorem size_meetAll_le (f : Frontier) (ids : List BlockId) :
    (f.meetAll ids).size ≤ f.size := by
  induction ids generalizing f with
  | nil => exact Nat.le_refl _
  | cons id ids ih => exact Nat.le_trans (ih (f.meet id)) (f.size_meet_le id)

end Frontier

/-- The blocks that a breadth-first search takes from its `queue`, in this order.  With each block
    it meets those that come `next` after it. -/
def flood (next : BlockId → List BlockId) : Frontier → List BlockId
  | ⟨[], _⟩ => []
  | ⟨id :: queue, fresh⟩ => id :: flood next (Frontier.meetAll ⟨queue, fresh⟩ (next id))
termination_by f => f.size
decreasing_by
  refine Nat.lt_of_le_of_lt (Frontier.size_meetAll_le _ _) ?_
  simp only [Frontier.size, List.length_cons]
  omega

namespace Graph

/-- The `flood` that starts at the block `start`. -/
def floodFrom (g : Graph) (next : BlockId → List BlockId) (start : BlockId) : List BlockId :=
  flood next ⟨[start], g.ids.filter (· ≠ start)⟩

/-- The blocks that `floodFrom` the entry takes, ascending. -/
def reachable (g : Graph) : List BlockId :=
  let taken := g.floodFrom g.successors g.entry
  g.ids.filter (· ∈ taken)

/-- Whether `id` is a block of the graph that has no commands. -/
def isEmptyBlock (g : Graph) (id : BlockId) : Bool := (g.block? id).any Block.isEmpty

/-- The successors of `id`, if a search from `start` looks through it: it does so at the start and
    at empty blocks. -/
def beyond (g : Graph) (start id : BlockId) : List BlockId :=
  if id = start || g.isEmptyBlock id then g.successors id else []

/-- The first non-empty blocks behind `id`, looking through empty ones (`beyond`).  The block itself
    is not among them. -/
def nonEmptySuccessors (g : Graph) (id : BlockId) : List BlockId :=
  (g.floodFrom (g.beyond id) id).filter fun b => b ≠ id && !g.isEmptyBlock b

end Graph

end Warrant
