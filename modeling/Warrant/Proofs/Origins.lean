import Mathlib.Data.List.TakeWhile
import Warrant.Proofs.RootSession
import Warrant.Proofs.StageMaps

/-!
# Where blocks come from

A session continues the map to the first graph at two checkpoints, each time after it has checked
that the map of the new stage covers the new graph.  A composed map has the keys of its later part,
and it can be composed only if every link of that part leads on.  So after all stages a block has an
origin exactly if the last stage map has the block, and the origin is found by going through the
three maps one after the other.

Loop hints are kept for blocks of the first graph.  Whatever else is reported about loops, the first
hint for a header stays.

* `LoopHints.hint?_call`: what a report does to the hint of a header.
* `Session.call_tracked`: what a call does to the hints of a session; `Session.run_tracked` follows
  from it.
* `Session.origins_survive_stages`: origins and hints after all stages.
-/

namespace Warrant

/-! ## Loop hints -/

namespace LoopHints

/-- The hint that a report gives for `header`. -/
def Call.hintFor? (header : BlockId) : Call → Option LoopHint
  | .hint other h => if other = header then some h else none
  | _ => none

/-- `recordHint` as a call: a second hint for a header is refused, with the table as it was. -/
theorem call_hint (t : LoopHints) (header : BlockId) (hint : LoopHint) :
    t.call (.hint header hint) = if t.hints.contains header then (.error (.duplicateHint header), t)
      else (.ok (), { t with hints := t.hints.insert header hint }) := by
  simp only [call, recordHint]
  by_cases hheld : t.hints.contains header
  · rw [if_pos hheld, if_pos hheld]
  · rw [if_neg hheld, if_neg hheld]

/-- `hint?` after a report: a header that has a hint keeps it, and another gets the one that is
    reported for it (`hintFor?`). -/
theorem hint?_call (t : LoopHints) (c : Call) (header : BlockId) :
    (t.call c).2.hint? header = (t.hint? header).or (c.hintFor? header) := by
  cases c with
  | hint other h =>
    rw [call_hint, Call.hintFor?]
    split
    case isTrue hheld =>
      -- The report is refused, and the header that it is for has a hint already.
      by_cases heq : other = header
      · exact (Option.or_of_isSome (heq ▸ hheld)).symm
      · simp [heq]
    case isFalse hheld =>
      -- The report is taken.  If it is for this header, there was no hint for it.
      show (t.hints.insert other h).get? header = _
      rw [Table.get?_insert]
      by_cases heq : other = header
      · have hnone : t.hint? header = none := heq ▸ Option.not_isSome_iff_eq_none.1 hheld
        simp [heq, hnone]
      · simp [hint?, heq]
  | addedBackedge | addedEntry | toBefore => exact (Option.or_none).symm

end LoopHints

namespace Session

/-! ## The map to the first graph -/

section

variable {config : Config} {calls : List Call} {acyclic live final : Snapshot}

/-- What holds of every `Step` holds of every event in `history`. -/
private theorem forall_mem_history {P : Event → Prop}
    (hstep : ∀ {s c a s'}, Step s c a s' → P (c, a)) : ∀ e ∈ history config calls, P e := by
  have hrun (s : Session) : ∀ e ∈ calls.zip (s.run calls).1, P e := by
    induction calls generalizing s with
    | nil => simp
    | cons c calls ih =>
      intro e he
      obtain rfl | he := List.mem_cons.1 he
      · exact hstep (s.call_step c)
      · exact ih _ e he
  exact hrun { config }

/-- `afterUnreachablePruning` is accepted only with a map that has all blocks of the graph. -/
private theorem total_of_accepted
    (h : (.afterUnreachablePruning final, .ok none) ∈ history config calls) :
    ∀ b ∈ final.graph.ids, (final.toPrevious.get? b).isSome := by
  refine StageMap.checkTotal_eq_ok_iff.1 (forall_mem_history (P := fun e =>
    e = (.afterUnreachablePruning final, .ok none) →
      final.toPrevious.checkTotal final.graph = .ok ()) ?_ _ h rfl)
  intro s c a s' hstep heq
  cases heq
  cases hstep with
  | enter k hc hnext hentry =>
    cases hentry with
    | final _ m hm => exact (chained_eq_ok_iff.1 hm).1

/-- After all stages `toOrigin` is composed of the maps of the three snapshots. -/
private theorem toOrigin_of_accepted
    (hacyclic : (.beforeRenaming acyclic, .ok none) ∈ history config calls)
    (hlive : (.afterDeadBlockRemoval live, .ok none) ∈ history config calls)
    (hfinal : (.afterUnreachablePruning final, .ok none) ∈ history config calls) :
    (run { config } calls).2.finalGraph = some final.graph ∧
      ∃ m' m, live.toPrevious.compose acyclic.toPrevious = .ok m' ∧
        final.toPrevious.compose m' = .ok m ∧ (run { config } calls).2.toOrigin = some m := by
  obtain ⟨trail, ht⟩ := run_trail config calls
  generalize (run { config } calls).2 = s at *
  -- The last checkpoint was accepted, so the trail has all six of them.
  have hreached := ht.reached_of_accepted (List.mem_filterMap.2 ⟨_, hfinal, rfl⟩)
  obtain ⟨p, a₁, g, acyclic', a₃, names, r, live', d, final', a₆, rfl⟩ :=
    ht.complete (by rcases hreached with hr | hr <;> rw [hr] <;> rfl)
  -- The accepted reports are those of the trail.
  have hacyclic := ht.recorded _ hacyclic rfl
  have hlive := ht.recorded _ hlive rfl
  have hfinal := ht.recorded _ hfinal rfl
  simp only [List.mem_cons, Prod.mk.injEq, reduceCtorEq, false_and, or_false, false_or,
    List.not_mem_nil, Call.beforeRenaming.injEq, Call.afterDeadBlockRemoval.injEq,
    Call.afterUnreachablePruning.injEq]
    at hacyclic hlive hfinal
  obtain ⟨rfl, rfl⟩ := hacyclic
  obtain ⟨rfl, rfl⟩ := hlive
  obtain ⟨rfl, rfl⟩ := hfinal
  have hfacts := ht.facts
  simp only [List.foldl_cons, List.foldl_nil, Facts.add_program, Facts.add_loops, Facts.add_acyclic,
    Facts.add_renames, Facts.add_live, Facts.add_final] at hfacts
  have hgraph : s.finalGraph = some final.graph := congrArg Facts.final hfacts
  refine ⟨hgraph, ?_⟩
  obtain ⟨m, horigin⟩ := ht.exists_toOrigin hgraph
  -- The map is continued twice, from the map of the acyclic graph.
  obtain ⟨m', hm', hm⟩ := continued_eq_some_iff.1
    ((congrArg Facts.origin hfacts).symm.trans horigin)
  obtain ⟨m₁, hm₁, hm'⟩ := continued_eq_some_iff.1 hm'
  obtain rfl := Option.some.inj hm₁
  exact ⟨m', m, hm', hm, horigin⟩

end

/-- `originOf` is a look-up in `toOrigin`. -/
private theorem originOf_eq_ok_iff {s : Session} {m : StageMap} (hm : s.toOrigin = some m)
    {b o : BlockId} :
    s.originOf b = .ok o ↔ m.get? b = some o := by
  rw [← StageMap.resolve_eq_ok_iff]
  simp only [originOf, hm]
  cases m.resolve b <;> simp [liftFlow]

/-- At the last checkpoint `addHint` takes a hint for every block of the final graph, if these have
    origins, and only for those. -/
theorem call_hint {s : Session} {g : Graph} (hreached : s.reached = .afterUnreachablePruning)
    (hgraph : s.finalGraph = some g) (horigin : ∀ b ∈ g.ids, Succeeds (s.originOf b)) (b : BlockId)
    (hint : VcHint) : (s.call (.hint b hint)).1 = if b ∈ g.ids then .ok none
      else .error (.flow (.unknownBlock b)) := by
  have haccepted : s.hintAccepted b =
      if b ∈ g.ids then .ok () else .error (.flow (.unknownBlock b)) := by
    -- The checkpoint is the right one, so the graph and the origin decide.
    unfold hintAccepted require
    rw [hreached, hgraph, if_pos rfl]
    by_cases hb : b ∈ g.ids
    · obtain ⟨o, ho⟩ := horigin b hb
      have hcontains := (g.mem_ids_iff_contains b).1 hb
      rw [if_pos hb, ho]
      simp [hcontains, bind, Except.bind, pure, Except.pure]
    · have hcontains : g.contains b = false :=
          Bool.eq_false_iff.2 (mt (g.mem_ids_iff_contains b).2 hb)
      rw [if_neg hb]
      simp [hcontains, bind, Except.bind, throw, throwThe, MonadExceptOf.throw]
  show (plain (s.addHint b hint)).1 = _
  unfold addHint
  rw [haccepted]
  by_cases hb : b ∈ g.ids
  · rw [if_pos hb, if_pos hb]
    rfl
  · rw [if_neg hb, if_neg hb]
    rfl

/-! ## Hints for loops -/

/-- The report about loops that a call makes. -/
def Call.loopReport? : Call → Option LoopHints.Call
  | .loop c => some c
  | _ => none

/-- What was reported about loops after `beforeAcyclification` was accepted. -/
def loopReports (events : List Event) : List LoopHints.Call :=
  (events.dropWhile fun e => accepted? e ≠ some .beforeAcyclification).filterMap fun e =>
    e.1.loopReport?

/-- The hint that was reported first for `header`, among `loopReports`. -/
def firstHint? (events : List Event) (header : BlockId) : Option LoopHint :=
  (loopReports events).findSome? (·.hintFor? header)

/-- The hint that a session has for `header` in its `loopHints`. -/
def hint? (s : Session) (header : BlockId) : Option LoopHint := s.loopHints.bind (·.hint? header)

/-- `beforeAcyclification` was accepted. -/
def LoopsReported (events : List Event) : Prop :=
  ∃ e ∈ events, accepted? e = some .beforeAcyclification

/-- No event is left after those before `beforeAcyclification` if it was not accepted. -/
private theorem dropWhile_eq_nil_iff_not_reported {events : List Event} :
    events.dropWhile (fun e => accepted? e ≠ some .beforeAcyclification) = [] ↔
      ¬LoopsReported events := by
  simp [List.dropWhile_eq_nil_iff, LoopsReported]

/-- An event after `beforeAcyclification` adds its report to `loopReports`. -/
private theorem loopReports_append_of_reported {events : List Event} (h : LoopsReported events)
    (e : Event) : loopReports (events ++ [e]) = loopReports events ++ e.1.loopReport?.toList := by
  have hne := mt dropWhile_eq_nil_iff_not_reported.1 (not_not_intro h)
  rw [loopReports, List.dropWhile_append, if_neg (by rwa [List.isEmpty_iff]), filterMap_concat]
  rfl

/-- The first event that can count for `loopReports` is the one that reports the loops. -/
private theorem loopReports_append_of_not_reported {events : List Event} (h : ¬LoopsReported events)
    (e : Event) : loopReports (events ++ [e]) = loopReports [e] := by
  rw [loopReports, List.dropWhile_append, dropWhile_eq_nil_iff_not_reported.2 h, List.isEmpty_nil,
    if_pos rfl]
  rfl

/-- The sessions `s` and `s'` have the same hints for loops. -/
def SameHints (s s' : Session) : Prop :=
  s'.loopHints.isSome = s.loopHints.isSome ∧ ∀ header, s'.hint? header = s.hint? header

/-- Sessions with the same `loopHints` have the same hints. -/
private theorem SameHints.of_eq {s s' : Session} (h : s'.loopHints = s.loopHints) :
    SameHints s s' := by
  simp [SameHints, hint?, h]

/-- `relateLoops` changes no hint. -/
private theorem sameHints_relateLoops (s : Session) (snapshot : Snapshot) :
    SameHints s (s.relateLoops snapshot).2 := by
  unfold relateLoops
  cases hhints : s.loopHints with
  | none => exact .of_eq rfl
  | some hints => exact ⟨by simp [hhints], fun header => by simp only [hint?, hhints]; rfl⟩

/-- `reportAcyclic` changes no hint, wherever it stops. -/
private theorem sameHints_reportAcyclic (s : Session) (snapshot : Snapshot) :
    SameHints s (s.reportAcyclic snapshot).2 := by
  unfold reportAcyclic
  -- It has three parts, and only the last touches the loops.
  refine attemptThen_preserves (SameHints s) ?_ fun s₁ h₁ => ?_
  · unfold enter
    split <;> exact .of_eq rfl
  · refine attemptThen_preserves (SameHints s) h₁ fun s₂ h₂ => ?_
    refine attemptThen_preserves (SameHints s) ?_ fun s₃ h₃ => h₃
    obtain ⟨hsome, hhint⟩ := s₂.sameHints_relateLoops snapshot
    exact ⟨hsome.trans h₂.1, fun header => (hhint header).trans (h₂.2 header)⟩

/-- A `Step` that says nothing about loops keeps `loopHints`. -/
private theorem Step.loopHints_eq {s s' : Session} {c : Call} {a : Answer} (h : Step s c a s')
    (hloops : c.checkpoint? ≠ some .beforeAcyclification)
    (hacyclic : c.checkpoint? ≠ some .beforeRenaming) (hreport : c.loopReport? = none) :
    s'.loopHints = s.loopHints := by
  cases h with
  | enter k hc hnext hentry =>
    cases hentry with
    | loops => exact absurd rfl hloops
    | acyclic | acyclicRefused => exact absurd rfl hacyclic
    | _ => rfl
  | loop => cases hreport
  | _ => rfl

/-- The call keeps the hints for loops, if there are any, and adds the one that it reports for a
    header without. -/
structure AddsHint (s : Session) (c : Call) : Prop where
  accepted : accepted? (c, (s.call c).1) ≠ some .beforeAcyclification
  isSome : (s.call c).2.loopHints.isSome = s.loopHints.isSome
  hint? : ∀ header, (s.call c).2.hint? header =
    (s.hint? header).or (if s.loopHints.isSome then c.loopReport?.bind (·.hintFor? header)
      else none)

/-- A call that reports nothing about loops and has `SameHints` after it satisfies `AddsHint`. -/
private theorem AddsHint.of_sameHints {s : Session} {c : Call}
    (hc : accepted? (c, (s.call c).1) ≠ some .beforeAcyclification) (hreport : c.loopReport? = none)
    (hsame : SameHints s (s.call c).2) : AddsHint s c where
  accepted := hc
  isSome := hsame.1
  hint? header := by simp [hsame.2, hreport]

/-- `reportLoop` drops a report as long as the graph of the loops is not known, and otherwise adds
    its hint. -/
private theorem addsHint_loop (s : Session) (report : LoopHints.Call) :
    AddsHint s (.loop report) := by
  have haccepted : accepted? (.loop report, (s.call (.loop report)).1) ≠
      some .beforeAcyclification := by
    intro h
    cases (accepted?_eq_some_iff.1 h).2
  cases hhints : s.loopHints with
  | none =>
    -- Nothing is known of the loops, and the report is answered without effect.
    have hcall : s.call (.loop report) = (.ok none, s) := by
      simp only [call, reportLoop, hhints, plain]
      rfl
    exact ⟨haccepted, by rw [hcall], fun header => by simp [hcall, hhints]⟩
  | some hints =>
    have hcall : (s.call (.loop report)).2 =
        { s with loopHints := some (hints.call report).2 } := by
      simp only [call, reportLoop, hhints, plain]
    refine ⟨haccepted, by rw [hcall, hhints]; rfl, fun header => ?_⟩
    rw [hcall]
    simpa [Session.hint?, hhints, Call.loopReport?] using hints.hint?_call report header

/-- `beforeAcyclification` is accepted after `program`, and then there are no hints.  Out of order
    it is refused, and nothing changes. -/
private theorem call_loops (s : Session) (g : Graph) :
    s.reached = .program ∧ s.call (.beforeAcyclification g) =
        (.ok none, { s with reached := .beforeAcyclification, loopHints := some (.ofGraph g) }) ∨
      ∃ e, s.call (.beforeAcyclification g) = (.error e, s) := by
  by_cases hnext : s.reached.next? = some .beforeAcyclification
  · have hreached : s.reached = .program := by
      cases hr : s.reached <;> rw [hr] at hnext <;> first | rfl | cases hnext
    refine .inl ⟨hreached, ?_⟩
    simp only [call, reportLoops, enter, if_pos hnext, attemptThen, plain]
    rfl
  · refine .inr ⟨.checkpointOrder Checkpoint.beforeAcyclification.name
      ((s.reached.next?.map Checkpoint.name).getD "nothing"), ?_⟩
    simp only [call, reportLoops, enter, if_neg hnext, attemptThen, plain]
    rfl

/-- What a call does to the hints for loops: it is an accepted `beforeAcyclification`, and then
    there are no hints yet, or it satisfies `AddsHint`. -/
theorem call_tracked (s : Session) (c : Call) :
    (∃ g, c = .beforeAcyclification g ∧ s.reached = .program ∧
      s.call c = (.ok none, { s with
        reached := .beforeAcyclification, loopHints := some (.ofGraph g) })) ∨
    AddsHint s c := by
  have hother (hc : c.checkpoint? ≠ some .beforeAcyclification) :
      accepted? (c, (s.call c).1) ≠ some .beforeAcyclification :=
    fun h => hc (accepted?_eq_some_iff.1 h).2
  -- Of the other calls only those at the two checkpoints and reports can touch the loops.
  have hquiet (hloops : c.checkpoint? ≠ some .beforeAcyclification)
      (hacyclic : c.checkpoint? ≠ some .beforeRenaming) (hreport : c.loopReport? = none) :
      AddsHint s c :=
    .of_sameHints (hother hloops) hreport
      (.of_eq ((s.call_step c).loopHints_eq hloops hacyclic hreport))
  cases c with
  | beforeAcyclification g =>
    obtain ⟨hreached, hcall⟩ | ⟨e, hcall⟩ := s.call_loops g
    · exact .inl ⟨g, rfl, hreached, hcall⟩
    · exact .inr (.of_sameHints (by rw [hcall]; intro h; cases h) rfl
        (by rw [hcall]; exact .of_eq rfl))
  | beforeRenaming snapshot =>
    exact .inr (.of_sameHints (hother fun h => by cases h) rfl (s.sameHints_reportAcyclic snapshot))
  | loop report => exact .inr (s.addsHint_loop report)
  | _ => exact .inr (hquiet (fun h => by cases h) (fun h => by cases h) rfl)

/-- The `loopHints` of a session agree with its history. -/
structure Tracked (events : List Event) (s : Session) : Prop where
  reported : s.loopHints.isSome ↔ LoopsReported events
  /-- The loops are reported once. -/
  passed : LoopsReported events → .beforeAcyclification ∈ Session.passed s.reached
  hint? : ∀ header, s.hint? header = firstHint? events header

/-- Checkpoints that were `passed` stay so after a `Step`. -/
private theorem Step.passed_subset {s s' : Session} {c : Call} {a : Answer} (h : Step s c a s') :
    Session.passed s.reached ⊆ Session.passed s'.reached := by
  cases h with
  | enter k hc hnext hentry =>
    rw [hentry.reached, passed_next hnext hc]
    exact List.subset_append_left _ _
  | document vc enclosing theory hassemble =>
    rw [(s.assemble_eq_ok_iff.1 hassemble).1]
    exact List.Subset.refl _
  | _ => exact List.Subset.refl _

/-- `LoopsReported` of one event more. -/
private theorem loopsReported_append {events : List Event} {e : Event} :
    LoopsReported (events ++ [e]) ↔ LoopsReported events ∨
      accepted? e = some .beforeAcyclification := by
  simp [LoopsReported, or_and_right, exists_or]

namespace Tracked

variable {events : List Event} {s : Session}

/-- A new session is `Tracked`, with nothing reported. -/
theorem new (config : Config) : Tracked [] { config } where
  reported := by simp [LoopsReported]
  passed h := by simp [LoopsReported] at h
  hint? _ := rfl

/-- A call keeps a session `Tracked`: it adds to the hints what it adds to the history. -/
theorem step (h : Tracked events s) (c : Call) :
    Tracked (events ++ [(c, (s.call c).1)]) (s.call c).2 := by
  rcases s.call_tracked c with ⟨g, rfl, hreached, hcall⟩ | hadds
  · -- The loops were not reported before, so nothing that was reported about them counts.
    have hbefore : ¬LoopsReported events := by
      intro hr
      have hpassed := h.passed hr
      rw [hreached] at hpassed
      revert hpassed
      decide
    rw [hcall]
    refine ⟨iff_of_true rfl (loopsReported_append.2 (.inr rfl)), fun _ => ?_, fun header => ?_⟩
    · show Checkpoint.beforeAcyclification ∈ Session.passed .beforeAcyclification
      decide
    · rw [firstHint?, loopReports_append_of_not_reported hbefore]
      rfl
  · have hiff : LoopsReported (events ++ [(c, (s.call c).1)]) ↔ LoopsReported events := by
      rw [loopsReported_append, or_iff_left hadds.accepted]
    refine ⟨by rw [hadds.isSome, h.reported, hiff], fun hr => ?_, fun header => ?_⟩
    · exact (s.call_step c).passed_subset (h.passed (hiff.1 hr))
    · rw [hadds.hint?, h.hint?, firstHint?, firstHint?]
      by_cases hr : LoopsReported events
      · rw [if_pos (h.reported.2 hr), loopReports_append_of_reported hr, List.findSome?_append]
        cases c.loopReport? <;> simp
      · -- Without the graph of the loops nothing is kept.
        have hnone : loopReports [(c, (s.call c).1)] = [] := by
          simp [loopReports, hadds.accepted]
        have hnil : loopReports events = [] := by
          rw [loopReports, dropWhile_eq_nil_iff_not_reported.2 hr, List.filterMap_nil]
        rw [if_neg (mt h.reported.1 hr), loopReports_append_of_not_reported hr, hnone, hnil]
        rfl

end Tracked

/-- Every session is `Tracked`: the hint for a loop header is the one that was reported first. -/
theorem run_tracked (config : Config) (calls : List Call) :
    Tracked (history config calls) (run { config } calls).2 :=
  history_preserves (Tracked.new config) (fun c h => h.step c) calls

/-! ## After all stages -/

/-- After all stages `originOf` succeeds exactly on the blocks that the last map has, and goes
    through the three maps.  Every block of the final graph has an origin.  `loopHintFor` gives the
    hint that was reported first for the origin, whatever else was reported about loops, and hints
    for the verification condition are taken for the blocks of the final graph and no others. -/
theorem origins_survive_stages {config : Config} {calls : List Call} {acyclic live final : Snapshot}
    (hacyclic : (.beforeRenaming acyclic, .ok none) ∈ history config calls)
    (hlive : (.afterDeadBlockRemoval live, .ok none) ∈ history config calls)
    (hfinal : (.afterUnreachablePruning final, .ok none) ∈ history config calls) (b : BlockId) :
    let s := (run { config } calls).2
    (Succeeds (s.originOf b) ↔ (final.toPrevious.get? b).isSome) ∧
    (∀ o, s.originOf b = .ok o ↔
      ∃ b₂ b₁, final.toPrevious.get? b = some b₂ ∧ live.toPrevious.get? b₂ = some b₁ ∧
        acyclic.toPrevious.get? b₁ = some o) ∧
    (b ∈ final.graph.ids → Succeeds (s.originOf b)) ∧
    (∀ h, s.loopHintFor b = .ok (some h) ↔
      ∃ o, s.originOf b = .ok o ∧ firstHint? (history config calls) o = some h) ∧
    (s.reached = .afterUnreachablePruning →
      ∀ hint, (s.call (.hint b hint)).1 =
        if b ∈ final.graph.ids then .ok none else .error (.flow (.unknownBlock b))) := by
  intro s
  obtain ⟨hgraph, m', m, hm', hm, horigin⟩ := toOrigin_of_accepted hacyclic hlive hfinal
  obtain ⟨hleads', -, hm'⟩ := StageMap.compose_eq_ok_iff.1 hm'
  obtain ⟨hleads, -, hm⟩ := StageMap.compose_eq_ok_iff.1 hm
  have hresolve (b o : BlockId) : s.originOf b = .ok o ↔ m.get? b = some o :=
    originOf_eq_ok_iff horigin
  -- Every link of the last map leads on, so the composed map has the same blocks.
  have hsucceeds (b : BlockId) : Succeeds (s.originOf b) ↔ (final.toPrevious.get? b).isSome := by
    simp only [Succeeds, hresolve, hm, ← Option.isSome_iff_exists]
    cases hb : final.toPrevious.get? b with
    | none => rfl
    | some b₂ => exact iff_of_true (hleads b b₂ hb) rfl
  have hfinalIds (b : BlockId) (hb : b ∈ final.graph.ids) : Succeeds (s.originOf b) :=
    (hsucceeds b).2 (total_of_accepted hfinal b hb)
  refine ⟨hsucceeds b, fun o => ?_, hfinalIds b, fun h => ?_, fun hreached hint => ?_⟩
  · rw [hresolve, hm]
    simp only [Option.bind_eq_some_iff, hm']
    constructor
    · rintro ⟨b₂, h₂, b₁, h₁, h₀⟩
      exact ⟨b₂, b₁, h₂, h₁, h₀⟩
    · rintro ⟨b₂, b₁, h₂, h₁, h₀⟩
      exact ⟨b₂, h₂, b₁, h₁, h₀⟩
  · -- The hint of a block is that of its origin, and the session has kept the first.
    rw [loopHintFor, bind_eq_ok_iff]
    refine exists_congr fun o => and_congr_right fun _ => ?_
    rw [← (run_tracked config calls).hint? o]
    exact ⟨Except.ok.inj, congrArg Except.ok⟩
  · exact call_hint hreached hgraph hfinalIds b hint

/-- A hint for a loop with an invariant. -/
def loopHintWith (invariant : Bool) : LoopHint := ⟨[.lit (.bool invariant)], ["x"]⟩

/-- A hint that says nothing. -/
def trivialHint : VcHint := ⟨.lit (.bool true), .lit (.bool true), .lit (.bool true), .always⟩

/-- A `Snapshot` with one block, whose map may have more than this. -/
def oneBlockFrom (id : BlockId) (links : List (BlockId × BlockId)) : Snapshot :=
  ⟨.singleton id ⟨"head", []⟩, (StageMap.ofList links).toOption.getD {}⟩

/-- A session with stages that give every block a new number, in which reports about the loops are
    refused. -/
def renumberedCalls : List Call :=
  [.program {}, .loop (.hint 1 (loopHintWith false)), .beforeAcyclification oneBlock,
   .loop (.hint 1 (loopHintWith true)), .loop (.addedBackedge 2 1),
   .beforeRenaming (oneBlockFrom 3 [(3, 1), (4, 2)]),
   .afterRenaming [], .loop (.hint 1 (loopHintWith false)), .loop (.addedBackedge 2 7),
   .afterDeadBlockRemoval (oneBlockFrom 5 [(5, 3), (6, 4), (7, 4)]),
   .afterUnreachablePruning (oneBlockFrom 10 [(10, 5), (12, 6)])]

/-- In `renumberedCalls` block 10 has the hint of block 1.  Block 12, which is not in the final
    graph, comes from block 2, and block 5 of the stage before has no origin any more. -/
theorem origins_survive_stages_renumbered :
    let s := (run { config := {} } renumberedCalls).2
    s.loopHintFor 10 = .ok (some (loopHintWith true)) ∧
      (s.call (.hint 10 trivialHint)).1 = .ok none ∧
      s.originOf 12 = .ok 2 ∧
      (s.call (.hint 12 trivialHint)).1 = .error (.flow (.unknownBlock 12)) ∧
      ¬Succeeds (s.originOf 5) := by
  have hacyclic : (.beforeRenaming (oneBlockFrom 3 [(3, 1), (4, 2)]), .ok none) ∈
      history {} renumberedCalls := List.mem_of_getElem? (i := 5) rfl
  have hlive : (.afterDeadBlockRemoval (oneBlockFrom 5 [(5, 3), (6, 4), (7, 4)]), .ok none) ∈
      history {} renumberedCalls := List.mem_of_getElem? (i := 9) rfl
  have hfinal : (.afterUnreachablePruning (oneBlockFrom 10 [(10, 5), (12, 6)]), .ok none) ∈
      history {} renumberedCalls := List.mem_of_getElem? (i := 10) rfl
  have hstages := origins_survive_stages hacyclic hlive hfinal
  obtain ⟨-, horigin, -, hhint, hadd⟩ := hstages 10
  obtain ⟨-, horigin', -, -, hadd'⟩ := hstages 12
  refine ⟨(hhint _).2 ⟨1, (horigin 1).2 ⟨5, 3, rfl, rfl, rfl⟩, rfl⟩,
    (hadd rfl _).trans (if_pos (by decide)),
    (horigin' 2).2 ⟨6, 4, rfl, rfl, rfl⟩, (hadd' rfl _).trans (if_neg (by decide)), fun h => ?_⟩
  -- The last map has no block 5.
  exact nomatch (hstages 5).1.1 h

end Session

end Warrant
