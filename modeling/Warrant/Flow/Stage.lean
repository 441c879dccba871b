import Warrant.Flow.Graph

/-! # Stage maps

A stage of a transformation may drop, copy and rename blocks.  A `StageMap` says for each block of
the later stage which block of the earlier stage it comes from, and for each earlier block which
later ones come from it: its descendants.  Both directions are kept, and `StageMap.link` enters a
link in both. -/

namespace Warrant

/-- Where the blocks of a later stage come from, with both directions of each link. -/
structure StageMap where
  /-- The earlier block for each later one. -/
  links : Table BlockId BlockId := .empty
  /-- The set of later blocks for each earlier one. -/
  offspring : Table BlockId (Table BlockId Unit) := .empty
  deriving DecidableEq

namespace StageMap

instance : Inhabited StageMap := ⟨{}⟩

/-- The earlier block that `later` comes from. -/
def get? (m : StageMap) (later : BlockId) : Option BlockId := m.links.get? later

/-- The earlier block that `later` must have; `get?`, or an error. -/
def resolve (m : StageMap) (later : BlockId) : Except FlowError BlockId :=
  match m.get? later with
  | some earlier => .ok earlier
  | none => .error (.missingStage later)

/-- The set of later blocks that come from `earlier`. -/
def offspringOf (m : StageMap) (earlier : BlockId) : Table BlockId Unit :=
  (m.offspring.get? earlier).getD .empty

/-- The later blocks that come from `earlier`, ascending. -/
def descendants (m : StageMap) (earlier : BlockId) : List BlockId := (m.offspringOf earlier).keys

/-- The number of later blocks that `m` maps. -/
def size (m : StageMap) : Nat := m.links.size

/-- The map with a link from `later` to `earlier`, in both directions. -/
def link (m : StageMap) (later earlier : BlockId) : StageMap where
  links := m.links.insert later earlier
  offspring := m.offspring.insert earlier ((m.offspringOf earlier).insert later ())

/-- Map the block `later`.  It may be mapped again only to the same `earlier` block; otherwise the
    map stays as it is. -/
def record (m : StageMap) (later earlier : BlockId) : Except FlowError Unit × StageMap :=
  match m.get? later with
  | some existing =>
    if existing = earlier then (.ok (), m)
    else (.error (.conflictingStage later earlier existing), m)
  | none => (.ok (), m.link later earlier)

/-- The map that `record` leaves, unless it refuses the link. -/
def insert (m : StageMap) (later earlier : BlockId) : Except FlowError StageMap :=
  match m.record later earlier with
  | (.ok (), m') => .ok m'
  | (.error e, _) => .error e

/-- The map with the given `links`, inserted in order up to the first conflict. -/
def ofList (links : List (BlockId × BlockId)) : Except FlowError StageMap :=
  links.foldlM (fun m link => m.insert link.1 link.2) {}

/-- The map of a stage that keeps every block of `g`. -/
def identity (g : Graph) : StageMap := g.ids.foldl (fun m id => m.link id id) {}

/-- The map from the latest stage to the earliest: from a block of `m` to the middle block, and on
    through `earlier`. -/
def compose (m earlier : StageMap) : Except FlowError StageMap :=
  m.links.entries.foldlM (fun (out : StageMap) (later, middle) => do
    out.insert later (← earlier.resolve middle)) {}

/-- Every block of the graph `later` has to be mapped. -/
def checkTotal (m : StageMap) (later : Graph) : Except FlowError Unit :=
  later.ids.forM fun id => do let _ ← m.resolve id

end StageMap

end Warrant
