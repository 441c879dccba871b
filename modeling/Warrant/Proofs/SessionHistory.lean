import Warrant.Proofs.SessionSteps

/-!
# What a session knows of its history

A history is the list of calls with their answers.  Of these, some made the session reach a
checkpoint.  They are its `Trail`: one call for each checkpoint up to the one that is reached, in
order.  What the session has recorded follows from its trail alone (`Facts`), so everything else
that was called in between does not matter.

* `history_preserves`: invariants of a session together with its history.
* `Trail.step`: a call keeps the trail or extends it by itself.
* `run_trail`: every session has a trail.
-/

namespace Warrant.Session

/-- A `Call` with its `Answer`. -/
abbrev Event := Call × Answer

/-- The calls that a new session gets in a `run`, each with its answer. -/
def history (config : Config) (calls : List Call) : List Event := calls.zip (run { config } calls).1

/-- What holds of a new session, and of a longer history after each call, holds of every session
    with its `history`. -/
theorem history_preserves {P : List Event → Session → Prop} {config : Config}
    (hnew : P [] { config })
    (hstep : ∀ {events s} (c : Call), P events s →
      P (events ++ [(c, (s.call c).1)]) (s.call c).2)
    (calls : List Call) : P (history config calls) (run { config } calls).2 := by
  -- The history grows at its end, so the induction is on the calls that are left.
  have hrun {events : List Event} {s : Session} (h : P events s) :
      P (events ++ calls.zip (s.run calls).1) (s.run calls).2 := by
    induction calls generalizing events s with
    | nil =>
      rw [List.zip_nil_left, List.append_nil]
      exact h
    | cons c calls ih =>
      have hrest := ih (hstep c h)
      rw [List.append_assoc] at hrest
      exact hrest
  exact hrun hnew

/-- The checkpoints that have to be reported, in order. -/
def reports : List Checkpoint :=
  [.program, .beforeAcyclification, .beforeRenaming, .afterRenaming, .afterDeadBlockRemoval,
    .afterUnreachablePruning]

/-- The `reports` up to a checkpoint. -/
def passed : Checkpoint → List Checkpoint
  | .start => reports.take 0
  | .program => reports.take 1
  | .beforeAcyclification => reports.take 2
  | .beforeRenaming => reports.take 3
  | .afterRenaming => reports.take 4
  | .afterDeadBlockRemoval => reports.take 5
  | .afterUnreachablePruning | .proofsGenerated => reports

/-- The checkpoint that a call reports, if it was accepted. -/
def accepted? (e : Event) : Option Checkpoint :=
  match e.2 with
  | .ok _ => e.1.checkpoint?
  | .error _ => none

/-- The checkpoints whose reports were accepted, in order. -/
def accepted (events : List Event) : List Checkpoint := events.filterMap accepted?

/-- `List.filterMap` of one more item. -/
theorem filterMap_concat {α β : Type} (f : α → Option β) (l : List α) (a : α) :
    (l ++ [a]).filterMap f = l.filterMap f ++ (f a).toList := by
  rw [List.filterMap_append]
  cases h : f a with
  | none => simp [h]
  | some b => simp [h]

/-- `accepted` of one more call. -/
private theorem accepted_append (events : List Event) (e : Event) :
    accepted (events ++ [e]) = accepted events ++ (accepted? e).toList := filterMap_concat ..

/-- What a session has recorded of its `reports`. -/
structure Facts where
  program : Option Program := none
  origin : Option StageMap := none
  renamed : Table String String := .empty
  final : Option Graph := none

/-- Continue the map `earlier` to the first graph, if there is one, by a map to the stage before. -/
def continued (earlier : Option StageMap) (snapshot : Snapshot) : Option StageMap :=
  earlier.bind fun m => (snapshot.toPrevious.compose m).toOption

/-- The renamed variables of `names` that were recorded: all, or those before the one that was
    refused. -/
def recordedNames (names : List String) : Answer → List String
  | .ok _ => names
  | .error (.variableMapping name) => names.takeWhile (· ≠ name)
  | .error _ => []

/-- What is recorded after one more `Event`. -/
def Facts.add (f : Facts) : Event → Facts
  | (.program p, .ok _) => { f with program := some p }
  | (.beforeRenaming snapshot, .ok _) => { f with origin := some snapshot.toPrevious }
  | (.afterRenaming names, a) => { f with renamed := recordAll f.renamed (recordedNames names a) }
  | (.afterDeadBlockRemoval snapshot, .ok _) => { f with origin := continued f.origin snapshot }
  | (.afterUnreachablePruning snapshot, .ok _) =>
    { f with origin := continued f.origin snapshot, final := some snapshot.graph }
  | _ => f

namespace Facts

variable (f : Facts) (a : Answer)

/-- A `program` is recorded if it is accepted. -/
theorem add_program (p : Program) :
    f.add (.program p, a) = { f with program := if a.isOk then some p else f.program } := by
  cases a <;> rfl

/-- `beforeAcyclification` changes no fact. -/
theorem add_loops (g : Graph) : f.add (.beforeAcyclification g, a) = f := by
  cases a <;> rfl

/-- `beforeRenaming` gives the map to the first graph if it is accepted. -/
theorem add_acyclic (snapshot : Snapshot) :
    f.add (.beforeRenaming snapshot, a) =
      { f with origin := if a.isOk then some snapshot.toPrevious else f.origin } := by
  cases a <;> rfl

/-- `afterRenaming` records the `recordedNames`. -/
theorem add_renames (names : List String) :
    f.add (.afterRenaming names, a) =
      { f with renamed := recordAll f.renamed (recordedNames names a) } := by
  cases a <;> rfl

/-- `afterDeadBlockRemoval` continues the map to the first graph if it is accepted. -/
theorem add_live (snapshot : Snapshot) :
    f.add (.afterDeadBlockRemoval snapshot, a) =
      { f with origin := if a.isOk then continued f.origin snapshot else f.origin } := by
  cases a <;> rfl

/-- `afterUnreachablePruning` continues the map and gives the final graph if it is accepted. -/
theorem add_final (snapshot : Snapshot) :
    f.add (.afterUnreachablePruning snapshot, a) =
      { f with
        origin := if a.isOk then continued f.origin snapshot else f.origin
        final := if a.isOk then some snapshot.graph else f.final } := by
  cases a <;> rfl

end Facts

/-- What the session `s` has recorded, as `Facts`. -/
def facts (s : Session) : Facts := ⟨s.program, s.toOrigin, s.renamed, s.finalGraph⟩

/-- The answers that a report of the checkpoint that comes next can get, given the `program`, if one
    was accepted. -/
def answerable (program : Option Program) : Event → Prop
  | (.beforeAcyclification _, a) => a = .ok none
  | (.afterRenaming names, a) => ∀ p, program = some p →
      a = .ok none ∧ (∀ name ∈ names, declares p name = true) ∨
        ∃ name, a = .error (.variableMapping name)
  | (.afterDeadBlockRemoval _, a) => a = .ok none ∨ ∃ e, a = .error (.flow e)
  | (_, a) => a = .ok none ∨ ∃ e, a = .error e

/-- The reports `trail` that took a session to where it is, of all `events`. -/
structure Trail (events trail : List Event) (s : Session) : Prop where
  sublist : trail.Sublist events
  /-- There is one report for each checkpoint up to the one that is reached. -/
  checkpoints : trail.map (fun e => e.1.checkpoint?) = (passed s.reached).map some
  /-- No other report was accepted. -/
  accepted : Session.accepted events = Session.accepted trail
  recorded : ∀ e ∈ events, (accepted? e).isSome → e ∈ trail
  facts : s.facts = trail.foldl Facts.add {}
  answers : ∀ e ∈ trail, answerable s.program e
  /-- The final graph is recorded only with a map to the first graph. -/
  anchored : s.finalGraph ≠ none → s.toOrigin ≠ none
  documents : s.reached = .proofsGenerated ↔ ∃ e ∈ events, ∃ theory, e.2 = .ok (some theory)

/-! ## Reports -/

/-- When `chained` continues to a stage, and by which map. -/
theorem chained_eq_ok_iff {s : Session} {snapshot : Snapshot} {m : StageMap} :
    s.chained snapshot = .ok m ↔ snapshot.toPrevious.checkTotal snapshot.graph = .ok () ∧
      ∃ earlier, s.toOrigin = some earlier ∧ snapshot.toPrevious.compose earlier = .ok m := by
  unfold chained
  rw [bind_eq_ok_iff]
  cases s.toOrigin with
  | none =>
    -- Without a map to the first graph there is nothing to continue.
    constructor
    · intro ⟨_, _, h⟩
      cases h
    · intro ⟨_, _, h, _⟩
      cases h
  | some earlier =>
    constructor
    · intro ⟨_, htotal, h⟩
      exact ⟨htotal, earlier, rfl, h⟩
    · intro ⟨htotal, earlier', heq, h⟩
      obtain rfl := Option.some.inj heq
      exact ⟨(), htotal, h⟩

/-- `continued` composes the maps. -/
theorem continued_eq_some_iff {earlier : Option StageMap} {snapshot : Snapshot} {m : StageMap} :
    continued earlier snapshot = some m ↔
      ∃ m', earlier = some m' ∧ snapshot.toPrevious.compose m' = .ok m := by
  unfold continued
  rw [Option.bind_eq_some_iff]
  refine exists_congr fun m' => and_congr_right fun _ => ?_
  cases snapshot.toPrevious.compose m' with
  | error e => exact iff_of_false (fun h => nomatch h) fun h => nomatch h
  | ok m'' =>
    show some m'' = some m ↔ _
    rw [Option.some.injEq, Except.ok.injEq]

/-- `chained` gives the map of `continued`. -/
private theorem continued_of_chained {s : Session} {snapshot : Snapshot} {m : StageMap}
    (h : s.chained snapshot = .ok m) : continued s.toOrigin snapshot = some m := by
  obtain ⟨_, earlier, hearlier, hm⟩ := chained_eq_ok_iff.1 h
  exact continued_eq_some_iff.2 ⟨earlier, hearlier, hm⟩

section

variable {s s' : Session} {c : Call} {a : Answer}

/-- An `Entry` is recorded as its answer says. -/
theorem Entry.facts (h : Entry s c a s') : s'.facts = s.facts.add (c, a) := by
  cases h with
  | live snapshot m hm | final snapshot m hm =>
    simp only [Session.facts, Facts.add, continued_of_chained hm]
  | _ => rfl

/-- An `Entry` does not change the checkpoint that is reached. -/
theorem Entry.reached (h : Entry s c a s') : s'.reached = s.reached := by
  cases h <;> rfl

/-- An `Entry` gets one of the answers that are possible for it. -/
theorem Entry.answerable (h : Entry s c a s') : Session.answerable s'.program (c, a) := by
  cases h with
  | loops g => rfl
  | live | program | acyclic | final => exact .inl rfl
  | renames p names hp hnames =>
    intro p' hp'
    obtain rfl := Option.some.inj (hp.symm.trans hp')
    exact .inl ⟨rfl, hnames⟩
  | renamesRefused p names name hp hname => exact fun _ _ => .inr ⟨name, rfl⟩
  | renamesWithoutProgram names hp => exact fun _ hp' => nomatch hp.symm.trans hp'
  | liveRefused snapshot e hm => exact .inr ⟨e, rfl⟩
  | programRefused | acyclicRefused | finalRefused => exact .inr ⟨_, rfl⟩

/-- No `Entry` but that of a program changes the program. -/
private theorem Entry.program_eq (h : Entry s c a s') (hc : c.checkpoint? ≠ some .program) :
    s'.program = s.program := by
  cases h with
  | program | programRefused => exact absurd rfl hc
  | _ => rfl

/-- An `Entry` that records the final graph has a map to the first graph. -/
theorem Entry.anchored (h : Entry s c a s') (hs : s.finalGraph ≠ none → s.toOrigin ≠ none) :
    s'.finalGraph ≠ none → s'.toOrigin ≠ none := by
  cases h with
  | acyclic | live | final => exact fun _ => Option.some_ne_none _
  | _ => exact hs

/-- No `Entry` is answered with a document. -/
private theorem Entry.no_document (h : Entry s c a s') (theory : Theory) :
    a ≠ .ok (some theory) := by
  cases h <;> exact fun h => nomatch h

end

/-- Reaching the next checkpoint adds it to those that are `passed`. -/
theorem passed_next {k next : Checkpoint} {c : Call} (h : k.next? = some next)
    (hc : c.checkpoint? = some next) : passed next = passed k ++ [next] := by
  cases k <;> cases h <;> first | rfl | (cases c <;> cases hc)

namespace Trail

variable {events trail : List Event} {s s' : Session} {c : Call} {a : Answer}

/-- A new session has the empty `Trail`. -/
theorem new (config : Config) : Trail [] [] { config } where
  sublist := .slnil
  checkpoints := rfl
  accepted := rfl
  recorded e he := absurd he List.not_mem_nil
  facts := rfl
  answers e he := absurd he List.not_mem_nil
  anchored h := absurd rfl h
  documents := by simp

/-- A call that is not an accepted report keeps the `Trail`, if the session stays at the checkpoint
    or ends. -/
theorem keep (h : Trail events trail s) (hpassed : passed s'.reached = passed s.reached)
    (hfacts : s'.facts = s.facts) (haccepted : accepted? (c, a) = none)
    (hdocument : s'.reached = .proofsGenerated ↔ s.reached = .proofsGenerated ∨
      ∃ theory, a = .ok (some theory)) : Trail (events ++ [(c, a)]) trail s' where
  sublist := h.sublist.trans (List.sublist_append_left _ _)
  checkpoints := by rw [hpassed]; exact h.checkpoints
  accepted := by rw [accepted_append, haccepted, h.accepted, Option.toList_none, List.append_nil]
  -- The new event is not an accepted report, so the trail needs no entry for it.
  recorded e he hsome := by
    rcases List.mem_append.1 he with he | he
    · exact h.recorded e he hsome
    · rw [List.mem_singleton.1 he, haccepted] at hsome
      cases hsome
  facts := hfacts.trans h.facts
  answers e he := by
    rw [show s'.program = s.program from congrArg Facts.program hfacts]
    exact h.answers e he
  anchored := by
    rw [show s'.finalGraph = s.finalGraph from congrArg Facts.final hfacts,
      show s'.toOrigin = s.toOrigin from congrArg Facts.origin hfacts]
    exact h.anchored
  documents := by
    rw [hdocument, h.documents]
    simp [or_and_right, exists_or]

/-- An `Entry` at the next checkpoint extends the `Trail`. -/
theorem enter (h : Trail events trail s) {k : Checkpoint} (hc : c.checkpoint? = some k)
    (hnext : s.reached.next? = some k) (hentry : Entry { s with reached := k } c a s') :
    Trail (events ++ [(c, a)]) (trail ++ [(c, a)]) s' where
  sublist := h.sublist.append (List.Sublist.refl _)
  checkpoints := by
    rw [hentry.reached, passed_next hnext hc, List.map_append, List.map_append, h.checkpoints]
    simp [hc]
  accepted := by rw [accepted_append, accepted_append, h.accepted]
  recorded e he hsome := (List.mem_append.1 he).elim
    (fun he => List.mem_append_left _ (h.recorded e he hsome)) (List.mem_append_right _)
  facts := by
    rw [hentry.facts, List.foldl_append, ← h.facts]
    rfl
  answers e he := by
    rcases List.mem_append.1 he with he | he
    · -- The program does not change any more once there are reports.
      have hprogram : s'.program = s.program := hentry.program_eq fun hcp => by
        obtain rfl : k = .program := Option.some.inj (hc.symm.trans hcp)
        have hstart : s.reached = .start := by
          cases hr : s.reached <;> rw [hr] at hnext <;> first | rfl | cases hnext
        have hnil := h.checkpoints
        rw [hstart] at hnil
        rw [List.map_eq_nil_iff.1 hnil] at he
        cases he
      rw [hprogram]
      exact h.answers e he
    · rw [List.mem_singleton.1 he]
      exact hentry.answerable
  anchored := hentry.anchored h.anchored
  documents := by
    -- A session that has given a document reaches no further checkpoint, and a report gives none.
    have hbefore : s.reached ≠ .proofsGenerated := by
      intro hr
      rw [hr] at hnext
      cases hnext
    have hafter : s'.reached ≠ .proofsGenerated := by
      rw [hentry.reached]
      intro hr
      rw [show k = .proofsGenerated from hr] at hc
      cases c <;> cases hc
    have hnone := mt h.documents.2 hbefore
    refine ⟨fun hr => absurd hr hafter, fun ⟨e, he, theory, hdoc⟩ => ?_⟩
    rcases List.mem_append.1 he with he | he
    · exact absurd ⟨e, he, theory, hdoc⟩ hnone
    · rw [List.mem_singleton.1 he] at hdoc
      exact absurd hdoc (hentry.no_document theory)

/-- Every `Step` keeps the trail or extends it by its call. -/
theorem step (h : Trail events trail s) (hstep : Step s c a s') :
    ∃ trail', Trail (events ++ [(c, a)]) trail' s' := by
  cases hstep with
  | refused e => exact ⟨trail, h.keep rfl rfl rfl (by simp)⟩
  | enter k hc hnext hentry => exact ⟨_, h.enter hc hnext hentry⟩
  | loop c outcome hints =>
    cases outcome <;> exact ⟨trail, h.keep rfl rfl rfl (by simp [Except.map])⟩
  | hint id hint hid => exact ⟨trail, h.keep rfl rfl rfl (by simp)⟩
  | document vc enclosing theory hassemble =>
    have hreached := (s.assemble_eq_ok_iff.1 hassemble).1
    exact ⟨trail, h.keep (by rw [hreached]; rfl) rfl rfl (iff_of_true rfl (.inr ⟨theory, rfl⟩))⟩

/-- A session with a `finalGraph` has a map to the first graph. -/
theorem exists_toOrigin (h : Trail events trail s) {g : Graph} (hgraph : s.finalGraph = some g) :
    ∃ m, s.toOrigin = some m :=
  Option.ne_none_iff_exists'.1 (h.anchored (by rw [hgraph]; exact Option.some_ne_none _))

/-- The `Trail` of a session that has reached the last checkpoint. -/
theorem complete (h : Trail events trail s) (hreached : passed s.reached = reports) :
    ∃ p a₁ g acyclic a₃ names r live d final a₆,
      trail = [(.program p, a₁), (.beforeAcyclification g, .ok none), (.beforeRenaming acyclic, a₃),
        (.afterRenaming names, r), (.afterDeadBlockRemoval live, d),
        (.afterUnreachablePruning final, a₆)] := by
  have hcheckpoints := h.checkpoints
  have hanswers := h.answers
  rw [hreached] at hcheckpoints
  -- One call for each checkpoint: the call is determined up to what it reports.
  obtain _ | ⟨⟨c₁, a₁⟩, _ | ⟨⟨c₂, a₂⟩, _ | ⟨⟨c₃, a₃⟩, _ | ⟨⟨c₄, a₄⟩, _ | ⟨⟨c₅, a₅⟩,
      _ | ⟨⟨c₆, a₆⟩, rest⟩⟩⟩⟩⟩⟩ := trail <;>
    simp only [reports, List.map_cons, List.map_nil, List.cons.injEq, List.map_eq_nil_iff,
      reduceCtorEq, and_false] at hcheckpoints
  obtain ⟨h₁, h₂, h₃, h₄, h₅, h₆, rfl⟩ := hcheckpoints
  cases c₁ <;> cases h₁
  cases c₂ <;> cases h₂
  cases c₃ <;> cases h₃
  cases c₄ <;> cases h₄
  cases c₅ <;> cases h₅
  cases c₆ <;> cases h₆
  rename_i g _ _ _ _
  -- The report of the loops is never refused.
  have hloops : answerable s.program (.beforeAcyclification g, a₂) := hanswers _ (by simp)
  obtain rfl : a₂ = .ok none := hloops
  exact ⟨_, _, _, _, _, _, _, _, _, _, _, rfl⟩

end Trail

/-- Every `run` has a `Trail`. -/
theorem run_trail (config : Config) (calls : List Call) :
    ∃ trail, Trail (history config calls) trail (run { config } calls).2 := by
  refine history_preserves (P := fun events s => ∃ trail, Trail events trail s)
    ⟨[], .new config⟩ ?_ calls
  intro events s c ⟨trail, h⟩
  exact h.step (s.call_step c)

/-! ## What no call changes -/

/-- No `Step` changes the configuration. -/
private theorem Step.config_eq {s s' : Session} {c : Call} {a : Answer} (h : Step s c a s') :
    s'.config = s.config := by
  cases h with
  | enter k hc hnext hentry => cases hentry <;> rfl
  | _ => rfl

/-- A session keeps its `config`. -/
theorem run_config (s : Session) (calls : List Call) : (s.run calls).2.config = s.config :=
  run_preserves (P := fun s' => s'.config = s.config)
    (fun hstep h => hstep.config_eq.trans h) rfl calls

end Warrant.Session
