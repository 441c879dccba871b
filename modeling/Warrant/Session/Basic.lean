import Warrant.Assembly.EndToEnd
import Warrant.Condition.Hints
import Warrant.Flow.LoopHints
import Warrant.Scope.Registration
import Warrant.Theory

/-! # Sessions

A session accompanies the transformation of one procedure.  The calling tool reports the stages as
it reaches them, in a fixed order of checkpoints; the session keeps the program, the loops, the map
from the blocks of the current stage to those of the first graph, the renaming of variables and the
hints, and in the end assembles the theory.

A checkpoint that comes in order counts as reached even if what is reported there is refused.  What
was recorded before the refusal stays recorded. -/

namespace Warrant

/-- The points of a `Session`, in order. -/
inductive Checkpoint where
  | start
  | program
  | beforeAcyclification
  | beforeRenaming
  | afterRenaming
  | afterDeadBlockRemoval
  | afterUnreachablePruning
  | proofsGenerated
  deriving DecidableEq, Repr

namespace Checkpoint

/-- The name of a `Checkpoint` in messages. -/
def name : Checkpoint → String
  | .start => "start"
  | .program => "program"
  | .beforeAcyclification => "before_acyclification"
  | .beforeRenaming => "before_renaming"
  | .afterRenaming => "after_renaming"
  | .afterDeadBlockRemoval => "after_dead_block_removal"
  | .afterUnreachablePruning => "after_unreachable_pruning"
  | .proofsGenerated => "generate_all_proofs"

/-- The `Checkpoint` that comes next. -/
def next? : Checkpoint → Option Checkpoint
  | .start => some .program
  | .program => some .beforeAcyclification
  | .beforeAcyclification => some .beforeRenaming
  | .beforeRenaming => some .afterRenaming
  | .afterRenaming => some .afterDeadBlockRemoval
  | .afterDeadBlockRemoval => some .afterUnreachablePruning
  | .afterUnreachablePruning => some .proofsGenerated
  | .proofsGenerated => none

end Checkpoint

/-- A `graph` at some stage, with the map to the stage that was reported before. -/
structure Snapshot where
  graph : Graph
  toPrevious : StageMap

/-- The `Snapshot` of a stage that keeps every block of `g`. -/
def Snapshot.unchanged (g : Graph) : Snapshot := ⟨g, .identity g⟩

/-- What is known of a procedure so far. -/
structure Session where
  config : Config
  reached : Checkpoint := .start
  program : Option Program := none
  loopHints : Option LoopHints := none
  /-- From the blocks of the current stage to those of the graph before acyclification. -/
  toOrigin : Option StageMap := none
  /-- Renamed variables with their source names. -/
  renamed : Table String String := .empty
  finalGraph : Option Graph := none
  vcHints : BlockHints := .empty

/-- The first name that is in `seen` or occurs a second time. -/
def firstRepeated? (seen : List String) : List String → Option String
  | [] => none
  | x :: xs => if x ∈ seen then some x else firstRepeated? (x :: seen) xs

/-- The source name of a renamed variable: what stands in `name` before the first `@`. -/
def sourceName (name : String) : String := .ofList (name.toList.takeWhile (· ≠ '@'))

namespace Session

variable (s : Session)

/-- Reach the checkpoint `next`, if it is the one that comes next. -/
def enter (next : Checkpoint) : Except Error Unit × Session :=
  if s.reached.next? = some next then (.ok (), { s with reached := next })
  else
    let expected := (s.reached.next?.map Checkpoint.name).getD "nothing"
    (.error (.checkpointOrder next.name expected), s)

/-- An operation that is only allowed at the checkpoint `at_`. -/
def require (at_ : Checkpoint) (operation : String) : Except Error Unit :=
  if s.reached = at_ then .ok () else .error (.checkpointOrder operation at_.name)

/-- Report the declarations `p`.  The verification condition refers to parameters and locals by
    name, so their names have to differ. -/
def reportProgram (p : Program) : Except Error Unit × Session :=
  attemptThen (s.enter .program) fun s =>
    match firstRepeated? [] (p.paramsAndLocals.map Variable.name) with
    | some name => (.error (.duplicateVariable name), s)
    | none => (.ok (), { s with program := some p })

/-- Report the graph `g`, whose loops are going to be cut. -/
def reportLoops (g : Graph) : Except Error Unit × Session :=
  attemptThen (s.enter .beforeAcyclification) fun s =>
    (.ok (), { s with loopHints := some (.ofGraph g) })

/-- Let `loopHints` see the acyclic graph, if there are any. -/
def relateLoops (snapshot : Snapshot) : Except Error Unit × Session :=
  match s.loopHints with
  | none => (.ok (), s)
  | some hints =>
    let hints := hints.setToBefore snapshot.toPrevious
    (liftFlow (hints.validate snapshot.graph), { s with loopHints := some hints })

/-- Report the acyclic graph, with the map from its blocks to those of the graph before. -/
def reportAcyclic (snapshot : Snapshot) : Except Error Unit × Session :=
  attemptThen (s.enter .beforeRenaming) fun s =>
  attemptThen (liftFlow (snapshot.toPrevious.checkTotal snapshot.graph), s) fun s =>
  attemptThen (s.relateLoops snapshot) fun s =>
    (.ok (), { s with toOrigin := some snapshot.toPrevious })

/-- Record a renamed variable, which has to come from a parameter or local by its `sourceName`. -/
def recordRenamed (p : Program) (s : Session) (name : String) : Except Error Unit × Session :=
  if p.paramsAndLocals.any (·.name = sourceName name) then
    (.ok (), { s with renamed := s.renamed.insert name (sourceName name) })
  else (.error (.variableMapping name), s)

/-- Report the renamed variables `names`. -/
def reportRenaming (names : List String) : Except Error Unit × Session :=
  attemptThen (s.enter .afterRenaming) fun s =>
    match s.program with
    | none =>
      (.error (.checkpointOrder Checkpoint.afterRenaming.name Checkpoint.program.name), s)
    | some p => attemptEach (recordRenamed p) s names

/-- The map `toOrigin`, continued to a new stage. -/
def chained (snapshot : Snapshot) : Except FlowError StageMap := do
  snapshot.toPrevious.checkTotal snapshot.graph
  match s.toOrigin with
  | none => throw .stageMapNotSet
  | some earlier => snapshot.toPrevious.compose earlier

/-- Continue `toOrigin` to a new stage, unless `chained` refuses it. -/
def chain (snapshot : Snapshot) : Except Error Unit × Session :=
  match s.chained snapshot with
  | .ok m => (.ok (), { s with toOrigin := some m })
  | .error e => (.error (.flow e), s)

/-- Report the graph without dead blocks, and `chain` its map. -/
def reportLive (snapshot : Snapshot) : Except Error Unit × Session :=
  attemptThen (s.enter .afterDeadBlockRemoval) (·.chain snapshot)

/-- Report the final graph, for which the verification condition is made, and `chain` its map. -/
def reportFinal (snapshot : Snapshot) : Except Error Unit × Session :=
  attemptThen (s.enter .afterUnreachablePruning) fun s =>
  attemptThen (s.chain snapshot) fun s =>
    (.ok (), { s with finalGraph := some snapshot.graph })

/-- The block of the first graph that `id`, a block of the current stage, comes from. -/
def originOf (id : BlockId) : Except Error BlockId :=
  match s.toOrigin with
  | none => .error (.flow .stageMapNotSet)
  | some m => liftFlow (m.resolve id)

/-- The hint of the loop header that `id`, a block of the current stage, comes from, if it is
    one. -/
def loopHintFor (id : BlockId) : Except Error (Option LoopHint) := do
  let origin ← s.originOf id
  return s.loopHints.bind (·.hint? origin)

/-- Whether a hint for `id`, a block of the final graph, is accepted. -/
def hintAccepted (id : BlockId) : Except Error Unit := do
  s.require .afterUnreachablePruning "next_hint_for_block"
  unless s.finalGraph.any (·.contains id) do throw (.flow (.unknownBlock id))
  let _ ← s.originOf id

/-- Take the next hint for `id`, a block of the final graph, into `vcHints`. -/
def addHint (id : BlockId) (hint : VcHint) : Except Error Unit × Session :=
  match s.hintAccepted id with
  | .ok _ => (.ok (), { s with vcHints := s.vcHints.add id hint })
  | .error e => (.error e, s)

/-- Report something about the loops to `loopHints`. -/
def reportLoop (call : LoopHints.Call) : Except Error Unit × Session :=
  match s.loopHints with
  | none => (.ok (), s)
  | some hints =>
    let (outcome, hints) := hints.call call
    (liftFlow outcome, { s with loopHints := some hints })

/-- The theory of the procedure inside the scopes `enclosing`. -/
def assemble (vc : VcInput) (enclosing : List Scope) : Except Error Theory := do
  s.require .afterUnreachablePruning "generate_all_proofs"
  let some program := s.program | throw (.checkpointOrder "generate_all_proofs" "program")
  let some graph := s.finalGraph
    | throw (.checkpointOrder "generate_all_proofs" "after_unreachable_pruning")
  let created ← Catalog.create s.config {} program.globalIds program.localIds enclosing
  let (outcome, catalog) := created.addProgram program
  outcome
  let proof ← Assembly.proof
    { catalog, program, vc, graph, locale := s.config.locale, renamed := s.renamed }
  return {
    name := s.config.theory
    imports := s.config.imports
    decls := catalog.scope.decls ++ s.vcHints.definitions graph ++ proof }

/-- `assemble` the theory of the procedure, which ends the session. -/
def generate (vc : VcInput) (enclosing : List Scope) : Except Error Theory × Session :=
  match s.assemble vc enclosing with
  | .ok theory => (.ok theory, { s with reached := .proofsGenerated })
  | .error e => (.error e, s)

end Session

end Warrant
