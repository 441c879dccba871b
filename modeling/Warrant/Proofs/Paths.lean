import Mathlib.Logic.Relation
import Warrant.Flow.Graph

/-!
# Paths in a graph

What the orders of blocks, the dominators and the tests of a graph are about: edges, the paths along
them with the blocks that they pass, cycles, and which blocks no path can avoid.

* `Path`: a path with its blocks; `reaches_iff_exists_path`: one block reaches another along some
  path.
* `Dominates`: a block that every path from the entry passes through.
-/

namespace Warrant

namespace Graph

variable {g : Graph} {u v b d : BlockId} {p : List BlockId}

/-- An edge of `g` leads from `u` to `v`. -/
def Edge (g : Graph) (u v : BlockId) : Prop := (u, v) ∈ g.edges

instance (g : Graph) (u v : BlockId) : Decidable (g.Edge u v) :=
  inferInstanceAs (Decidable ((u, v) ∈ g.edges))

/-- An `Edge` leads from a block of the graph. -/
theorem Edge.source_mem (h : g.Edge u v) : u ∈ g.ids := (g.mem_of_edge _ h).1

/-- An `Edge` leads to a block of the graph. -/
theorem Edge.target_mem (h : g.Edge u v) : v ∈ g.ids := (g.mem_of_edge _ h).2

/-- Edges of `g` lead from one block to another, or the two are the same. -/
def Reaches (g : Graph) : BlockId → BlockId → Prop := Relation.ReflTransGen g.Edge

/-- Edges of `g` lead from `b` back to itself. -/
def OnCycle (g : Graph) (b : BlockId) : Prop := Relation.TransGen g.Edge b b

/-- What holds of a block and is kept by every edge holds of all that the block `Reaches`. -/
theorem Reaches.closed {P : BlockId → Prop} (h : g.Reaches u v)
    (hclosed : ∀ e ∈ g.edges, P e.1 → P e.2) (hu : P u) : P v := by
  induction h with
  | refl => exact hu
  | tail _ hedge ih => exact hclosed _ hedge ih

/-- A path from `u` along edges to some block, and the blocks that it passes, both ends included. -/
inductive Path (g : Graph) (u : BlockId) : BlockId → List BlockId → Prop where
  | start : Path g u u [u]
  | step {v w : BlockId} {p : List BlockId} : Path g u v p → g.Edge v w → Path g u w (p ++ [w])

/-- A block `Reaches` another exactly along some `Path`. -/
theorem reaches_iff_exists_path : g.Reaches u v ↔ ∃ p, g.Path u v p := by
  constructor
  · intro h
    induction h with
    | refl => exact ⟨_, .start⟩
    | tail _ hedge ih =>
      obtain ⟨p, hp⟩ := ih
      exact ⟨_, hp.step hedge⟩
  · rintro ⟨p, hp⟩
    induction hp with
    | start => exact .refl
    | step _ hedge ih => exact ih.tail hedge

/-- A block on a `Path` is reached from its start and reaches its end. -/
theorem Path.reaches_of_mem (h : g.Path u v p) (hb : b ∈ p) : g.Reaches u b ∧ g.Reaches b v := by
  induction h with
  | start =>
    obtain rfl := List.mem_singleton.1 hb
    exact ⟨.refl, .refl⟩
  | step hp hedge ih =>
    rcases List.mem_append.1 hb with hb | hb
    · -- Either the block is on the path so far, or it is the new end.
      exact ⟨(ih hb).1, (ih hb).2.tail hedge⟩
    · obtain rfl := List.mem_singleton.1 hb
      exact ⟨(reaches_iff_exists_path.2 ⟨_, hp⟩).tail hedge, .refl⟩

/-! ## Blocks that no path can avoid -/

/-- Every path from the entry to `b` passes through `d`. -/
def Dominates (g : Graph) (d b : BlockId) : Prop := ∀ p, g.Path g.entry b p → d ∈ p

/-- Only the entry `Dominates` the entry, as the path of no edges passes nothing else. -/
theorem Dominates.eq_entry (h : g.Dominates d g.entry) :
    d = g.entry := List.mem_singleton.1 (h _ .start)

/-- What `Dominates` a block lies between the entry and the block. -/
theorem Dominates.reaches (h : g.Dominates d b) (hb : g.Reaches g.entry b) :
    g.Reaches g.entry d ∧ g.Reaches d b := by
  obtain ⟨p, hp⟩ := reaches_iff_exists_path.1 hb
  exact hp.reaches_of_mem (h p hp)

/-- What `Dominates` a block, other than the block itself, dominates what leads to the block. -/
theorem Dominates.of_edge (h : g.Dominates d b) (hne : d ≠ b) (hedge : g.Edge u b) :
    g.Dominates d u := by
  intro p hp
  rcases List.mem_append.1 (h _ (hp.step hedge)) with hmem | hmem
  · exact hmem
  · exact absurd (List.mem_singleton.1 hmem) hne

end Graph

end Warrant
