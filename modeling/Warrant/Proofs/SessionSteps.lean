import Warrant.Proofs.Outcomes
import Warrant.Session.Calls

/-!
# What a call does to a session

`Step s c a s'` lists what can happen when a session in state `s` is called: the answer `a` and the
state `s'` that is left.  A call of a checkpoint that comes in order moves the session to that
checkpoint first, whatever its report is worth, and then takes an `Entry`: the report is recorded,
or refused.

* `call_step`: every call is one of these steps.  All invariants of sessions are derived from it.
-/

namespace Warrant.Session

/-- The `Checkpoint` that a call reports. -/
def Call.checkpoint? : Call → Option Checkpoint
  | .program _ => some .program
  | .beforeAcyclification _ => some .beforeAcyclification
  | .beforeRenaming _ => some .beforeRenaming
  | .afterRenaming _ => some .afterRenaming
  | .afterDeadBlockRemoval _ => some .afterDeadBlockRemoval
  | .afterUnreachablePruning _ => some .afterUnreachablePruning
  | .loop _ | .hint _ _ | .generate _ _ => none

/-- Whether a renamed variable comes from a parameter or local of `p`. -/
def declares (p : Program) (name : String) : Bool :=
  p.paramsAndLocals.any (·.name = sourceName name)

/-- Record renamed variables, each with its `sourceName`. -/
def recordAll (t : Table String String) (names : List String) : Table String String :=
  names.foldl (fun t name => t.insert name (sourceName name)) t

/-- What happens to a report of the checkpoint that the session has just `reached`. -/
inductive Entry (s : Session) : Call → Answer → Session → Prop where
  | program (p : Program) (h : firstRepeated? [] (p.paramsAndLocals.map Variable.name) = none) :
      Entry s (.program p) (.ok none) { s with program := some p }
  | programRefused (p : Program) (name : String)
      (h : firstRepeated? [] (p.paramsAndLocals.map Variable.name) = some name) :
      Entry s (.program p) (.error (.duplicateVariable name)) s
  | loops (g : Graph) :
      Entry s (.beforeAcyclification g) (.ok none) { s with loopHints := some (.ofGraph g) }
  | acyclic (snapshot : Snapshot) (hints : Option LoopHints)
      (h : snapshot.toPrevious.checkTotal snapshot.graph = .ok ()) :
      Entry s (.beforeRenaming snapshot) (.ok none)
        { s with loopHints := hints, toOrigin := some snapshot.toPrevious }
  | acyclicRefused (snapshot : Snapshot) (hints : Option LoopHints) (e : FlowError) :
      Entry s (.beforeRenaming snapshot) (.error (.flow e)) { s with loopHints := hints }
  | renames (p : Program) (names : List String) (hp : s.program = some p)
      (h : ∀ name ∈ names, declares p name = true) :
      Entry s (.afterRenaming names) (.ok none) { s with renamed := recordAll s.renamed names }
  /-- What comes before the name that is refused stays recorded. -/
  | renamesRefused (p : Program) (names : List String) (name : String) (hp : s.program = some p)
      (h : names.find? (fun name => !declares p name) = some name) :
      Entry s (.afterRenaming names) (.error (.variableMapping name))
        { s with renamed := recordAll s.renamed (names.takeWhile (· ≠ name)) }
  | renamesWithoutProgram (names : List String) (hp : s.program = none) :
      Entry s (.afterRenaming names)
        (.error (.checkpointOrder Checkpoint.afterRenaming.name Checkpoint.program.name)) s
  | live (snapshot : Snapshot) (m : StageMap) (h : s.chained snapshot = .ok m) :
      Entry s (.afterDeadBlockRemoval snapshot) (.ok none) { s with toOrigin := some m }
  | liveRefused (snapshot : Snapshot) (e : FlowError) (h : s.chained snapshot = .error e) :
      Entry s (.afterDeadBlockRemoval snapshot) (.error (.flow e)) s
  | final (snapshot : Snapshot) (m : StageMap) (h : s.chained snapshot = .ok m) :
      Entry s (.afterUnreachablePruning snapshot) (.ok none)
        { s with toOrigin := some m, finalGraph := some snapshot.graph }
  | finalRefused (snapshot : Snapshot) (e : FlowError) (h : s.chained snapshot = .error e) :
      Entry s (.afterUnreachablePruning snapshot) (.error (.flow e)) s

/-- What a call does: the answer and the state that `Session.call` leaves. -/
inductive Step (s : Session) : Call → Answer → Session → Prop where
  | refused (c : Call) (e : Error) : Step s c (.error e) s
  | enter {c : Call} {a : Answer} {s' : Session} (k : Checkpoint) (hc : c.checkpoint? = some k)
      (hnext : s.reached.next? = some k) (hentry : Entry { s with reached := k } c a s') :
      Step s c a s'
  | loop (c : LoopHints.Call) (outcome : Except Error Unit) (hints : Option LoopHints) :
      Step s (.loop c) (outcome.map fun _ => none) { s with loopHints := hints }
  | hint (id : BlockId) (hint : VcHint) (h : s.hintAccepted id = .ok ()) :
      Step s (.hint id hint) (.ok none) { s with vcHints := s.vcHints.add id hint }
  | document (vc : VcInput) (enclosing : List Scope) (theory : Theory)
      (h : s.assemble vc enclosing = .ok theory) :
      Step s (.generate vc enclosing) (.ok (some theory)) { s with reached := .proofsGenerated }

/-! ## Reports -/

variable (s : Session)

/-- `recordRenamed` goes on up to the first variable that comes from no parameter or local. -/
private theorem attemptEach_recordRenamed (p : Program) (names : List String) :
    attemptEach (recordRenamed p) s names =
      match names.find? (fun name => !declares p name) with
      | none => (.ok (), { s with renamed := recordAll s.renamed names })
      | some name =>
        (.error (.variableMapping name),
          { s with renamed := recordAll s.renamed (names.takeWhile (· ≠ name)) }) := by
  induction names generalizing s with
  | nil => rfl
  | cons name names ih =>
    cases hd : declares p name with
    | false =>
      have hstep : recordRenamed p s name = (.error (.variableMapping name), s) :=
        if_neg (by simpa [declares] using hd)
      rw [attemptEach, hstep, List.find?_cons, hd]
      simp [recordAll]
    | true =>
      have hstep : recordRenamed p s name =
          (.ok (), { s with renamed := s.renamed.insert name (sourceName name) }) :=
        if_pos hd
      rw [attemptEach, hstep, List.find?_cons, hd]
      simp only [Bool.not_true]
      rw [ih]
      cases hfind : names.find? (fun name => !declares p name) with
      | none => rfl
      | some bad =>
        -- The refused name is another one.
        have hbad : declares p bad = false := by simpa using List.find?_some hfind
        have hne : name ≠ bad := by
          intro heq
          rw [heq, hbad] at hd
          cases hd
        simp [recordAll, hne]

/-- `Session.enter` refuses a call out of order, and otherwise reaches the checkpoint before the
    report is looked at. -/
private theorem step_of_enter {c : Call} {k : Checkpoint} (hc : c.checkpoint? = some k)
    {next : Session → Except Error Unit × Session}
    (hnext : Entry { s with reached := k } c (plain (next { s with reached := k })).1
      (plain (next { s with reached := k })).2) :
    Step s c (plain (attemptThen (s.enter k) next)).1 (plain (attemptThen (s.enter k) next)).2 := by
  by_cases h : s.reached.next? = some k
  · rw [enter, if_pos h]
    exact .enter k hc h hnext
  · rw [enter, if_neg h]
    exact .refused c _

/-- `relateLoops` changes the `loopHints` only. -/
private theorem relateLoops_cases (snapshot : Snapshot) :
    ∃ hints, s.relateLoops snapshot = (.ok (), { s with loopHints := hints }) ∨
      ∃ e, s.relateLoops snapshot = (.error (.flow e), { s with loopHints := hints }) := by
  unfold relateLoops
  split
  · exact ⟨s.loopHints, .inl rfl⟩
  · next hints _ =>
    refine ⟨some (hints.setToBefore snapshot.toPrevious), ?_⟩
    cases hvalid : (hints.setToBefore snapshot.toPrevious).validate snapshot.graph with
    | ok _ => exact .inl (by simp only [hvalid, liftFlow])
    | error e => exact .inr ⟨e, by simp only [hvalid, liftFlow]⟩

/-- `beforeRenaming` is accepted if its map is total and the loop hints agree with it. -/
private theorem entry_acyclic (snapshot : Snapshot) :
    let attempt :=
      attemptThen (liftFlow (snapshot.toPrevious.checkTotal snapshot.graph), s) fun s =>
        attemptThen (s.relateLoops snapshot) fun s =>
          (.ok (), { s with toOrigin := some snapshot.toPrevious })
    Entry s (.beforeRenaming snapshot) (plain attempt).1 (plain attempt).2 := by
  intro attempt
  -- The map is checked before the loop hints see it, so a refusal there leaves the hints alone.
  cases htotal : snapshot.toPrevious.checkTotal snapshot.graph with
  | error e =>
    have hattempt : attempt = (.error (.flow e), s) := by
      simp only [attempt, htotal, liftFlow, attemptThen]
    rw [hattempt]
    exact .acyclicRefused snapshot s.loopHints e
  | ok _ =>
    obtain ⟨hints, hrelate | ⟨e, hrelate⟩⟩ := s.relateLoops_cases snapshot
    · have hattempt : attempt = (.ok (),
          { s with loopHints := hints, toOrigin := some snapshot.toPrevious }) := by
        simp only [attempt, htotal, liftFlow, attemptThen, hrelate]
      rw [hattempt]
      exact .acyclic snapshot hints htotal
    · have hattempt : attempt = (.error (.flow e), { s with loopHints := hints }) := by
        simp only [attempt, htotal, liftFlow, attemptThen, hrelate]
      rw [hattempt]
      exact .acyclicRefused snapshot hints e

/-- `afterRenaming` records variables if there is a program, as far as they come from it. -/
private theorem entry_renaming (names : List String) :
    let attempt := match s.program with
      | none => (.error (.checkpointOrder Checkpoint.afterRenaming.name Checkpoint.program.name), s)
      | some p => attemptEach (recordRenamed p) s names
    Entry s (.afterRenaming names) (plain attempt).1 (plain attempt).2 := by
  cases hp : s.program with
  | none => exact .renamesWithoutProgram names hp
  | some p =>
    simp only [attemptEach_recordRenamed]
    -- The names before the first that is not declared are recorded.
    cases hfind : names.find? (fun name => !declares p name) with
    | none =>
      exact .renames p names hp fun name hname => by
        simpa using List.find?_eq_none.1 hfind name hname
    | some name => exact .renamesRefused p names name hp hfind

/-- `program` is accepted unless two parameters or locals have one name. -/
private theorem entry_program (p : Program) :
    let attempt : Except Error Unit × Session :=
      match firstRepeated? [] (p.paramsAndLocals.map Variable.name) with
      | some name => (.error (.duplicateVariable name), s)
      | none => (.ok (), { s with program := some p })
    Entry s (.program p) (plain attempt).1 (plain attempt).2 := by
  cases hname : firstRepeated? [] (p.paramsAndLocals.map Variable.name) with
  | some name => exact .programRefused p name hname
  | none => exact .program p hname

/-- `afterDeadBlockRemoval` is accepted if its map leads on to the first graph. -/
private theorem entry_live (snapshot : Snapshot) :
    Entry s (.afterDeadBlockRemoval snapshot) (plain (s.chain snapshot)).1
      (plain (s.chain snapshot)).2 := by
  unfold chain
  cases hm : s.chained snapshot with
  | ok m => exact .live snapshot m hm
  | error e => exact .liveRefused snapshot e hm

/-- `afterUnreachablePruning` is accepted if its map leads on to the first graph. -/
private theorem entry_final (snapshot : Snapshot) :
    let attempt := attemptThen (s.chain snapshot) fun s =>
      (.ok (), { s with finalGraph := some snapshot.graph })
    Entry s (.afterUnreachablePruning snapshot) (plain attempt).1 (plain attempt).2 := by
  unfold chain
  cases hm : s.chained snapshot with
  | ok m => exact .final snapshot m hm
  | error e => exact .finalRefused snapshot e hm

/-! ## Calls -/

/-- Every `Session.call` is one of the steps. -/
theorem call_step (c : Call) : Step s c (s.call c).1 (s.call c).2 := by
  cases c with
  | program p =>
    -- The six checkpoints go through `enter`, which refuses them out of order.
    exact step_of_enter s rfl (entry_program _ p)
  | beforeAcyclification g => exact step_of_enter s rfl (.loops g)
  | beforeRenaming snapshot => exact step_of_enter s rfl (entry_acyclic _ snapshot)
  | afterRenaming names => exact step_of_enter s rfl (entry_renaming _ names)
  | afterDeadBlockRemoval snapshot => exact step_of_enter s rfl (entry_live _ snapshot)
  | afterUnreachablePruning snapshot => exact step_of_enter s rfl (entry_final _ snapshot)
  | loop c =>
    -- The other calls are possible at any checkpoint, with an answer of their own.
    cases hhints : s.loopHints with
    | none =>
      have hcall : s.call (.loop c) = (.ok none, s) := by
        simp only [call, reportLoop, hhints, plain]; rfl
      rw [hcall]
      exact .loop c (.ok ()) s.loopHints
    | some hints =>
      have hcall : s.call (.loop c) =
          plain (liftFlow (hints.call c).1, { s with loopHints := some (hints.call c).2 }) := by
        simp only [call, reportLoop, hhints]
      rw [hcall]
      exact .loop c _ _
  | hint id hint =>
    cases h : s.hintAccepted id with
    | ok _ =>
      have hcall : s.call (.hint id hint) =
          (.ok none, { s with vcHints := s.vcHints.add id hint }) := by
        simp only [call, addHint, h, plain]; rfl
      rw [hcall]
      exact .hint id hint h
    | error e =>
      have hcall : s.call (.hint id hint) = (.error e, s) := by
        simp only [call, addHint, h, plain]; rfl
      rw [hcall]
      exact .refused _ e
  | generate vc enclosing =>
    cases h : s.assemble vc enclosing with
    | ok theory =>
      have hcall : s.call (.generate vc enclosing) =
          (.ok (some theory), { s with reached := .proofsGenerated }) := by
        simp only [call, generate, h]; rfl
      rw [hcall]
      exact .document vc enclosing theory h
    | error e =>
      have hcall : s.call (.generate vc enclosing) = (.error e, s) := by
        simp only [call, generate, h]; rfl
      rw [hcall]
      exact .refused _ e

/-- What every `Step` keeps, every `run` keeps. -/
theorem run_preserves {P : Session → Prop} (hstep : ∀ {s c a s'}, Step s c a s' → P s → P s')
    {s : Session} (h : P s) (calls : List Call) : P (s.run calls).2 := by
  induction calls generalizing s with
  | nil => exact h
  | cons c calls ih => exact ih (hstep (s.call_step c) h)

/-! ## Assembling -/

/-- `generate` is answered with what `assemble` gives. -/
private theorem call_generate (vc : VcInput) (enclosing : List Scope) :
    (s.call (.generate vc enclosing)).1 = (s.assemble vc enclosing).map some := by
  simp only [call, generate]
  cases s.assemble vc enclosing <;> rfl

/-- The document that `generate` gives is the theory from `assemble`. -/
theorem call_generate_eq_ok_iff {vc : VcInput} {enclosing : List Scope} {theory : Theory} :
    (s.call (.generate vc enclosing)).1 = .ok (some theory) ↔
      s.assemble vc enclosing = .ok theory := by
  rw [call_generate]
  cases s.assemble vc enclosing with
  | error e => exact iff_of_false (fun h => nomatch h) fun h => nomatch h
  | ok t =>
    show Except.ok (some t) = _ ↔ _
    rw [Except.ok.injEq, Option.some.injEq, Except.ok.injEq]

/-- What the proof of a procedure is assembled from, in `Session.assemble`. -/
def assembly (catalog : Catalog) (program : Program) (graph : Graph) (vc : VcInput) : Assembly :=
  { catalog, program, vc, graph, locale := s.config.locale, renamed := s.renamed }

/-- When `assemble` gives a theory, and what it is. -/
theorem assemble_eq_ok_iff {vc : VcInput} {enclosing : List Scope} {theory : Theory} :
    s.assemble vc enclosing = .ok theory ↔
      s.reached = .afterUnreachablePruning ∧
        ∃ program graph created catalog proof, s.program = some program ∧
          s.finalGraph = some graph ∧
          Catalog.create s.config {} program.globalIds program.localIds enclosing = .ok created ∧
          created.addProgram program = (.ok (), catalog) ∧
          (s.assembly catalog program graph vc).proof = .ok proof ∧
          theory = ⟨s.config.theory, s.config.imports,
            catalog.scope.decls ++ s.vcHints.definitions graph ++ proof⟩ := by
  have hrequire : s.require .afterUnreachablePruning "generate_all_proofs" = .ok () ↔
      s.reached = .afterUnreachablePruning := by
    unfold require
    split <;> simp_all
  unfold assemble
  constructor
  · -- Each step of the assembly succeeds with what the one before gave.
    intro h
    obtain ⟨_, hreached, h⟩ := bind_eq_ok_iff.1 h
    refine ⟨hrequire.1 hreached, ?_⟩
    split at h
    · next program hprogram =>
      split at h
      · next graph hgraph =>
        obtain ⟨created, hcreated, h⟩ := bind_eq_ok_iff.1 h
        obtain ⟨_, houtcome, h⟩ := bind_eq_ok_iff.1 h
        obtain ⟨proof, hproof, h⟩ := bind_eq_ok_iff.1 h
        exact ⟨program, graph, created, _, proof, hprogram, hgraph, hcreated,
          Prod.ext houtcome rfl, hproof, (Except.ok.inj h).symm⟩
      · cases h
    · cases h
  · intro ⟨hreached, program, graph, created, catalog, proof, hprogram, hgraph, hcreated, hadd,
        hproof, htheory⟩
    refine bind_eq_ok_iff.2 ⟨(), hrequire.2 hreached, ?_⟩
    simp only [hprogram, hgraph]
    refine bind_eq_ok_iff.2 ⟨created, hcreated, ?_⟩
    simp only [hadd]
    exact bind_eq_ok_iff.2 ⟨(), rfl, bind_eq_ok_iff.2 ⟨proof, hproof,
      congrArg Except.ok htheory.symm⟩⟩

end Warrant.Session
