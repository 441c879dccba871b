import Warrant.Data.Table
import Warrant.Flow.Error
import Warrant.Logic.Term

/-! # Control-flow graphs

A graph has an entry, blocks under their numbers and edges between them.  It is built from its entry
block by `Graph.addBlock` and `Graph.addEdge`, which refuse blocks that are there already and edges
whose ends are not.  The edges are kept in the order in which they were added, each once, so the
successors of a block come in that order too. -/

namespace Warrant

/-- A command of a `Block`. -/
inductive Command where
  | assert (t : Term)
  | assume (t : Term)
  | assign (var : String) (value : Term)
  | havoc (vars : List String)
  deriving DecidableEq, Repr

/-- A straight line of `commands`. -/
structure Block where
  label : String
  commands : List Command
  deriving DecidableEq, Repr

/-- Whether a block has no `commands`. -/
def Block.isEmpty (b : Block) : Bool := b.commands.isEmpty

/-- A control-flow graph: its `entry` and the ends of its `edges` are among its `blocks`, and no
    edge is listed twice. -/
structure Graph where
  entry : BlockId
  blocks : Table BlockId Block
  edges : List (BlockId × BlockId)
  entry_mem : entry ∈ blocks.keys
  mem_of_edge : ∀ e ∈ edges, e.1 ∈ blocks.keys ∧ e.2 ∈ blocks.keys
  nodup_edges : edges.Nodup

namespace Graph

/-- The numbers of the `blocks`, ascending. -/
def ids (g : Graph) : List BlockId := g.blocks.keys

/-- The number of `blocks`. -/
def size (g : Graph) : Nat := g.blocks.size

/-- The block with the number `id`. -/
def block? (g : Graph) (id : BlockId) : Option Block := g.blocks.get? id

/-- Whether the graph has a block with the number `id`. -/
def contains (g : Graph) (id : BlockId) : Bool := g.blocks.contains id

/-- The targets of the `edges` that leave `id`, in the order in which they were added. -/
def successors (g : Graph) (id : BlockId) : List BlockId :=
  (g.edges.filter (·.1 = id)).map Prod.snd

/-- `successors` and `edges` are the same relation between blocks. -/
theorem mem_successors (g : Graph) (u v : BlockId) : v ∈ g.successors u ↔ (u, v) ∈ g.edges := by
  simp only [successors, List.mem_map, List.mem_filter, decide_eq_true_eq]
  constructor
  · rintro ⟨⟨a, b⟩, ⟨hm, rfl⟩, rfl⟩
    exact hm
  · intro h
    exact ⟨(u, v), ⟨h, rfl⟩, rfl⟩

/-- `ids` and `contains` agree on which blocks there are. -/
theorem mem_ids_iff_contains (g : Graph) (id : BlockId) : id ∈ g.ids ↔ g.contains id = true :=
  Table.mem_keys g.blocks id

/-- The graph of the single block `entry`, without edges. -/
def singleton (entry : BlockId) (block : Block) : Graph where
  entry
  blocks := Table.empty.insert entry block
  edges := []
  entry_mem := Table.mem_keys_insert.2 (.inl rfl)
  mem_of_edge := by simp
  nodup_edges := .nil

/-- Add `block` under the number `id`, unless that is in use. -/
def addBlock (g : Graph) (id : BlockId) (block : Block) : Except FlowError Graph :=
  if g.contains id then .error (.duplicateBlock id)
  else .ok
    { g with
      blocks := g.blocks.insert id block
      entry_mem := Table.mem_keys_insert.2 (.inr g.entry_mem)
      mem_of_edge := fun e he =>
        ⟨Table.mem_keys_insert.2 (.inr (g.mem_of_edge e he).1),
          Table.mem_keys_insert.2 (.inr (g.mem_of_edge e he).2)⟩ }

/-- Add an edge from `source` to `target`, two blocks of the graph.  One that is there already stays
    where it is. -/
def addEdge (g : Graph) (source target : BlockId) : Except FlowError Graph :=
  if ht : g.contains target = false then .error (.unknownBlock target)
  else if hs : g.contains source = false then .error (.unknownBlock source)
  else if hm : (source, target) ∈ g.edges then .ok g
  else .ok
    { g with
      edges := g.edges ++ [(source, target)]
      mem_of_edge := by
        intro e he
        rcases List.mem_append.1 he with he | he
        · exact g.mem_of_edge e he
        · obtain rfl := List.mem_singleton.1 he
          exact ⟨(g.mem_ids_iff_contains _).2 (by simpa using hs),
            (g.mem_ids_iff_contains _).2 (by simpa using ht)⟩
      nodup_edges := by
        rw [List.nodup_append]
        refine ⟨g.nodup_edges, by simp, ?_⟩
        rintro a ha b hb rfl
        exact hm (List.mem_singleton.1 hb ▸ ha) }

/-- The graph of the block `entry`, the blocks `others` and `edges`, added in this order up to the
    first that is refused. -/
def build (entry : BlockId × Block) (others : List (BlockId × Block))
    (edges : List (BlockId × BlockId)) :
    Except FlowError Graph := do
  let g ← others.foldlM (fun g b => g.addBlock b.1 b.2) (singleton entry.1 entry.2)
  edges.foldlM (fun g e => g.addEdge e.1 e.2) g

end Graph

end Warrant
