import Warrant.Session.Basic

/-! # Sessions as sequences of calls

Everything that changes a session, as one type of calls, and what a session answers to a sequence of
them. -/

namespace Warrant.Session

/-- A call that may change a `Session`. -/
inductive Call where
  | program (p : Program)
  | beforeAcyclification (g : Graph)
  | beforeRenaming (snapshot : Snapshot)
  | afterRenaming (names : List String)
  | afterDeadBlockRemoval (snapshot : Snapshot)
  | afterUnreachablePruning (snapshot : Snapshot)
  | loop (call : LoopHints.Call)
  | hint (id : BlockId) (hint : VcHint)
  | generate (vc : VcInput) (enclosing : List Scope)

/-- The answer to a `Call`: the theory, if one was asked for. -/
abbrev Answer := Except Error (Option Theory)

/-- The answer to a `Call` that asks for no theory. -/
def plain (attempt : Except Error Unit × Session) : Answer × Session :=
  (attempt.1.map fun _ => none, attempt.2)

/-- Answer a `Call`, with the session that it leaves. -/
def call (s : Session) : Call → Answer × Session
  | .program p => plain (s.reportProgram p)
  | .beforeAcyclification g => plain (s.reportLoops g)
  | .beforeRenaming snapshot => plain (s.reportAcyclic snapshot)
  | .afterRenaming names => plain (s.reportRenaming names)
  | .afterDeadBlockRemoval snapshot => plain (s.reportLive snapshot)
  | .afterUnreachablePruning snapshot => plain (s.reportFinal snapshot)
  | .loop c => plain (s.reportLoop c)
  | .hint id hint => plain (s.addHint id hint)
  | .generate vc enclosing =>
    let (outcome, s') := s.generate vc enclosing
    (outcome.map some, s')

/-- Answer calls in order, each from the session that the one before it left. -/
def run (s : Session) : List Call → List Answer × Session
  | [] => ([], s)
  | c :: cs =>
    let (answer, s₁) := s.call c
    let (answers, s₂) := s₁.run cs
    (answer :: answers, s₂)

end Warrant.Session
