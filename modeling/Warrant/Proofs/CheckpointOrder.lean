import Warrant.Proofs.SessionHistory

/-!
# What a document rests on

A document is assembled only after all checkpoints were reached, in order.  But a checkpoint counts
as reached even if its report is refused, and not every refusal stands in the way of a document.
Without a program, a map to the first graph or a final graph there is none.  After a refused
renaming, though, the document is made with the names that were recorded before the refusal, and
after a refused removal of dead blocks the map to the first graph passes over that stage.  These two
reports are the only ones behind a document that may have been refused.
-/

namespace Warrant.Session

/-- A document that `generate` gives rests on one report for each checkpoint, in order.  All of them
    were accepted but for two: `afterRenaming` may have been refused at a name, and then only the
    names before it are recorded; `afterDeadBlockRemoval` may have been refused, and then the map
    `toOrigin` passes over it.  So every checkpoint was accepted exactly if these two were. -/
theorem document_checkpoints {config : Config} {calls : List Call} {vc : VcInput}
    {enclosing : List Scope} {theory : Theory}
    (hdocument : ((run { config } calls).2.call (.generate vc enclosing)).1 = .ok (some theory)) :
    ∃ p g acyclic names r live d final,
      [(.program p, .ok none), (.beforeAcyclification g, .ok none),
        (.beforeRenaming acyclic, .ok none), (.afterRenaming names, r),
        (.afterDeadBlockRemoval live, d),
        (.afterUnreachablePruning final, .ok none)].Sublist (history config calls) ∧
      (reports.Sublist (accepted (history config calls)) ↔ r = .ok none ∧ d = .ok none) ∧
      (r = .ok none ∧ (run { config } calls).2.renamed = recordAll .empty names ∨
        ∃ name, r = .error (.variableMapping name) ∧
          (run { config } calls).2.renamed = recordAll .empty (names.takeWhile (· ≠ name))) ∧
      ((d = .ok none ∧ ∃ m m', live.toPrevious.compose acyclic.toPrevious = .ok m' ∧
          final.toPrevious.compose m' = .ok m ∧ (run { config } calls).2.toOrigin = some m) ∨
        ∃ e m, d = .error (.flow e) ∧ final.toPrevious.compose acyclic.toPrevious = .ok m ∧
          (run { config } calls).2.toOrigin = some m) := by
  obtain ⟨hreached, p', graph, _, _, _, hp', hgraph, _⟩ :=
    (assemble_eq_ok_iff _).1 ((call_generate_eq_ok_iff _).1 hdocument)
  obtain ⟨trail, ht⟩ := run_trail config calls
  generalize (run { config } calls).2 = s at *
  obtain ⟨p, a₁, g, acyclic, a₃, names, r, live, d, final, a₆, rfl⟩ :=
    ht.complete (by rw [hreached]; rfl)
  have hfacts := ht.facts
  simp only [List.foldl_cons, List.foldl_nil, Facts.add_program, Facts.add_loops, Facts.add_acyclic,
    Facts.add_renames, Facts.add_live, Facts.add_final] at hfacts
  -- There are a program and a final graph, so their reports were accepted.
  have hprogram : s.program = if a₁.isOk then some p else none := congrArg Facts.program hfacts
  have hfinal : s.finalGraph = if a₆.isOk then some final.graph else none :=
    congrArg Facts.final hfacts
  obtain rfl | ⟨e, rfl⟩ : answerable s.program (.program p, a₁) := ht.answers _ (by simp)
  case inr => rw [hp'] at hprogram; cases hprogram
  obtain rfl | ⟨e, rfl⟩ : answerable s.program (.afterUnreachablePruning final, a₆) :=
    ht.answers _ (by simp)
  case inr => rw [hgraph] at hfinal; cases hfinal
  -- With the final graph there is a map to the first one, so there was one at the stages before.
  obtain ⟨m, horigin⟩ := ht.exists_toOrigin hgraph
  obtain ⟨m', hm', hm⟩ := continued_eq_some_iff.1
    ((congrArg Facts.origin hfacts).symm.trans horigin)
  obtain rfl | ⟨e, rfl⟩ : answerable s.program (.beforeRenaming acyclic, a₃) :=
    ht.answers _ (by simp)
  case inr => split at hm' <;> cases hm'
  have hrenamed : s.renamed = recordAll .empty (recordedNames names r) :=
    congrArg Facts.renamed hfacts
  -- Where there is a program, a renaming is refused only for a name without a variable.
  have hr : r = .ok none ∨ ∃ name, r = .error (.variableMapping name) := by
    have hr : answerable s.program (.afterRenaming names, r) := ht.answers _ (by simp)
    exact (hr p' hp').imp_left And.left
  have hd : d = .ok none ∨ ∃ e, d = .error (.flow e) :=
    show answerable s.program (.afterDeadBlockRemoval live, d) from ht.answers _ (by simp)
  refine ⟨p, g, acyclic, names, r, live, d, final, ht.sublist, ?_, ?_, ?_⟩
  · rw [ht.accepted]
    constructor
    · -- With a refusal there are fewer than six.
      intro hsub
      have hlen := hsub.length_le
      obtain rfl | ⟨name, rfl⟩ := hr <;> obtain rfl | ⟨e, rfl⟩ := hd
      · exact ⟨rfl, rfl⟩
      all_goals simp [accepted, List.filterMap_cons, accepted?, Call.checkpoint?, reports] at hlen
    · rintro ⟨rfl, rfl⟩
      exact List.Sublist.refl _
  · obtain rfl | ⟨name, rfl⟩ := hr
    · exact .inl ⟨rfl, hrenamed⟩
    · exact .inr ⟨name, rfl, hrenamed⟩
  · obtain rfl | ⟨e, rfl⟩ := hd
    · obtain ⟨m₁, hm₁, hm'⟩ := continued_eq_some_iff.1 hm'
      obtain rfl := Option.some.inj hm₁
      exact .inl ⟨rfl, m, m', hm', hm, horigin⟩
    · obtain rfl := Option.some.inj hm'
      exact .inr ⟨e, m, rfl, hm, horigin⟩

/-! ## Sessions for a procedure of one block -/

/-- A graph of one block. -/
def oneBlock : Graph := .singleton 0 ⟨"entry", []⟩

/-- A session about a procedure with the parameter `x`, with the given renamed variables and report
    about dead blocks.  The first call comes too early. -/
def oneBlockCalls (names : List String) (live : Snapshot) : List Call :=
  [.afterRenaming names, .program { params := [⟨"x", .int, 0⟩] }, .beforeAcyclification oneBlock,
   .beforeRenaming (.unchanged oneBlock), .afterRenaming names, .afterDeadBlockRemoval live,
   .afterUnreachablePruning (.unchanged oneBlock)]

/-- The answer of `generate` after these calls. -/
def documentAfter (calls : List Call) : Answer :=
  ((run { config := {} } calls).2.call (.generate ⟨.lit (.bool true), []⟩ [])).1

/-- After `oneBlockCalls` that are all accepted, the document is made with all renamed variables. -/
theorem document_checkpoints_oneBlock :
    ∃ theory, documentAfter (oneBlockCalls ["x@0"] (.unchanged oneBlock)) = .ok (some theory) ∧
      ∃ names, (.afterRenaming names, .ok none) ∈
          history {} (oneBlockCalls ["x@0"] (.unchanged oneBlock)) ∧
        (run { config := {} } (oneBlockCalls ["x@0"] (.unchanged oneBlock))).2.renamed =
          recordAll .empty names := by
  obtain ⟨theory, hdocument⟩ :
      ∃ theory, documentAfter (oneBlockCalls ["x@0"] (.unchanged oneBlock)) = .ok (some theory) :=
    ⟨_, rfl⟩
  obtain ⟨_, _, _, names, _, _, _, _, hsub, haccepted, hrenamed, _⟩ :=
    document_checkpoints hdocument
  obtain ⟨rfl, rfl⟩ := haccepted.1 (by decide)
  refine ⟨theory, hdocument, names, hsub.subset (by simp), ?_⟩
  obtain ⟨_, h⟩ | ⟨name, h, _⟩ := hrenamed
  · exact h
  · cases h

/-- `documentAfter` a refused `afterRenaming` there is a document, with the names before the one
    that was refused, and likewise after a refused `afterDeadBlockRemoval`. -/
theorem document_after_refusal :
    (∃ theory, documentAfter (oneBlockCalls ["x@0", "y@0"] (.unchanged oneBlock)) =
      .ok (some theory)) ∧
      .afterRenaming ∉ accepted (history {} (oneBlockCalls ["x@0", "y@0"] (.unchanged oneBlock))) ∧
      (run { config := {} } (oneBlockCalls ["x@0", "y@0"] (.unchanged oneBlock))).2.renamed.keys =
        ["x@0"] ∧
      (∃ theory, documentAfter (oneBlockCalls ["x@0"] ⟨oneBlock, {}⟩) = .ok (some theory)) ∧
      .afterDeadBlockRemoval ∉ accepted (history {} (oneBlockCalls ["x@0"] ⟨oneBlock, {}⟩)) :=
  ⟨⟨_, rfl⟩, by decide, by decide, ⟨_, rfl⟩, by decide⟩

end Warrant.Session
