/-! # What can be wrong with graphs and stage maps -/

namespace Warrant

/-- Blocks of a `Graph` are numbered. -/
abbrev BlockId := Nat

/-- The text of a `BlockId`, as messages print it. -/
def BlockId.render (id : BlockId) : String := "#" ++ toString id

/-- Violations of the rules of a `Graph`, a `StageMap` or `LoopHints`. -/
inductive FlowError where
  | duplicateBlock (id : BlockId)
  | unknownBlock (id : BlockId)
  /-- The block `later` is already mapped, to another block than the one given now. -/
  | conflictingStage (later earlier existing : BlockId)
  | missingStage (id : BlockId)
  | stageMapNotSet
  | duplicateHint (header : BlockId)
  | duplicateSynthetic (id : BlockId)
  | missingHint (header : BlockId)
  deriving DecidableEq, Repr

namespace FlowError

open BlockId (render)

/-- The message of a `FlowError` for the user. -/
def message : FlowError → String
  | .duplicateBlock id => "block " ++ render id ++ " is already part of the graph"
  | .unknownBlock id => "block " ++ render id ++ " is not part of the graph"
  | .conflictingStage later earlier existing =>
    "block " ++ render later ++ " already maps to " ++ render existing ++ ", cannot remap it to " ++
      render earlier
  | .missingStage id => "block " ++ render id ++ " has no counterpart in the earlier stage"
  | .stageMapNotSet => "no post-acyclification identity map has been recorded"
  | .duplicateHint header => "loop header " ++ render header ++ " already has a hint"
  | .duplicateSynthetic id => "block " ++ render id ++ " is already registered as a synthetic block"
  | .missingHint header => "no hint recorded for loop header " ++ render header

/-- The code under which a `FlowError` is reported. -/
def code : FlowError → String
  | .duplicateBlock _ => "proofgen::cfg::duplicate_block"
  | .unknownBlock _ => "proofgen::cfg::unknown_block"
  | .conflictingStage .. => "proofgen::cfg::stage_conflict"
  | .missingStage _ => "proofgen::cfg::stage_missing"
  | .stageMapNotSet => "proofgen::cfg::stage_unset"
  | .duplicateHint _ => "proofgen::cfg::duplicate_hint"
  | .duplicateSynthetic _ => "proofgen::cfg::duplicate_synthetic"
  | .missingHint _ => "proofgen::cfg::missing_hint"

/-- Advice for the user, where a `FlowError` has some. -/
def help : FlowError → Option String
  | .stageMapNotSet => some "record the post-transform map before querying synthetic blocks"
  | .missingHint _ => some "hints must be recorded before the acyclification transform runs"
  | _ => none

end FlowError

end Warrant
