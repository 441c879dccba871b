import Warrant.Flow.Dominance
import Warrant.Flow.Stage

/-! # Loop hints across the removal of cycles

Making a graph acyclic redirects back edges and adds blocks, so block numbers change.  `LoopHints`
keeps what was known about the loops before: the back edges of the graph, the hints for its loop
headers and the blocks that were added for a back edge or in front of a loop.  Questions about
blocks of the new graph go through the stage map back to the old one. -/

namespace Warrant

/-- What is known of a loop at its header. -/
structure LoopHint where
  invariants : List Term
  modified : List String
  deriving DecidableEq, Repr

/-- What is known of the loops of a `Graph`. -/
structure LoopHints where
  /-- The loop headers of the graph with the sources of their back edges. -/
  backEdges : List (BlockId × List BlockId)
  hints : Table BlockId LoopHint := .empty
  /-- Blocks added for a back edge, with the header that it led to. -/
  addedBackedges : Table BlockId BlockId := .empty
  /-- Blocks added in front of a loop, with the loop's header. -/
  addedEntries : Table BlockId BlockId := .empty
  /-- From the blocks of the acyclic graph to those of the graph before, once it is set. -/
  toBefore : Option StageMap := none

namespace LoopHints

/-- Nothing but the `backEdges` of `g`. -/
def ofGraph (g : Graph) : LoopHints := { backEdges := g.backEdges }

/-- The headers, ascending, to which `backEdges` lead from the block `id`, if there are any. -/
def backedgeHeaders? (t : LoopHints) (id : BlockId) : Option (List BlockId) :=
  match t.backEdges.filter (fun (_, sources) => id ∈ sources) with
  | [] => none
  | edges => some (edges.map Prod.fst)

/-- Give the loop header its hint.  It can have only one in `hints`. -/
def recordHint (t : LoopHints) (header : BlockId) (hint : LoopHint) : Except FlowError LoopHints :=
  if t.hints.contains header then .error (.duplicateHint header)
  else .ok { t with hints := t.hints.insert header hint }

/-- Note in `addedBackedges` that `id` was added for a back edge to `header`.  A block that was
    noted before is reported, and its new header counts from now on. -/
def recordAddedBackedge (t : LoopHints) (id header : BlockId) : Except FlowError Unit × LoopHints :=
  let outcome := if t.addedBackedges.contains id then .error (.duplicateSynthetic id) else .ok ()
  (outcome, { t with addedBackedges := t.addedBackedges.insert id header })

/-- Note in `addedEntries` that `id` was added in front of the loop of `header`.  A block that was
    noted before is reported, and its new header counts from now on. -/
def recordAddedEntry (t : LoopHints) (id header : BlockId) : Except FlowError Unit × LoopHints :=
  let outcome := if t.addedEntries.contains id then .error (.duplicateSynthetic id) else .ok ()
  (outcome, { t with addedEntries := t.addedEntries.insert id header })

/-- Set `toBefore`, the map back to the graph before. -/
def setToBefore (t : LoopHints) (m : StageMap) : LoopHints := { t with toBefore := some m }

/-- What can be reported about loops to `LoopHints.call`. -/
inductive Call where
  | hint (header : BlockId) (hint : LoopHint)
  | addedBackedge (id header : BlockId)
  | addedEntry (id header : BlockId)
  | toBefore (m : StageMap)

/-- Take a report, with the `LoopHints` that it leaves. -/
def call (t : LoopHints) : Call → Except FlowError Unit × LoopHints
  | .hint header hint =>
    match t.recordHint header hint with
    | .ok t' => (.ok (), t')
    | .error e => (.error e, t)
  | .addedBackedge id header => t.recordAddedBackedge id header
  | .addedEntry id header => t.recordAddedEntry id header
  | .toBefore m => (.ok (), t.setToBefore m)

/-- The block of the graph before that `id` comes from, by the map `toBefore`. -/
def before (t : LoopHints) (id : BlockId) : Except FlowError BlockId :=
  match t.toBefore with
  | none => .error .stageMapNotSet
  | some m => m.resolve id

/-- The hint of the loop header, if there is one. -/
def hint? (t : LoopHints) (header : BlockId) : Option LoopHint := t.hints.get? header

/-- The hint that the loop header must have; `hint?`, or an error. -/
def hint (t : LoopHints) (header : BlockId) : Except FlowError LoopHint :=
  match t.hint? header with
  | some h => .ok h
  | none => .error (.missingHint header)

/-- The header and the hint of the loop for whose back edge the block was added, if it was
    (`addedBackedges`). -/
def addedBackedge? (t : LoopHints) (id : BlockId) :
    Except FlowError (Option (BlockId × LoopHint)) := do
  match t.addedBackedges.get? (← t.before id) with
  | none => return none
  | some header => return some (header, ← t.hint header)

/-- Whether the block was added in front of a loop (`addedEntries`). -/
def isAddedEntry (t : LoopHints) (id : BlockId) : Except FlowError Bool := do
  return t.addedEntries.contains (← t.before id)

/-- Every block of the acyclic graph `g` has to come from a block before, and every block added for
    a back edge has to lead to a hint (`addedBackedge?`). -/
def validate (t : LoopHints) (g : Graph) : Except FlowError Unit :=
  g.ids.forM fun id => do let _ ← t.addedBackedge? id

end LoopHints

end Warrant
