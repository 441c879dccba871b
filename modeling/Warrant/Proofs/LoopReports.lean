import Mathlib.Tactic.TFAE
import Warrant.Proofs.Origins

/-!
# Refused reports about loops

A report about a loop is refused if there is one for the same block already: a second hint for a
header, or a second note that a block was added for a back edge or in front of a loop.  A refused
hint is dropped.  A refused note is not: the block has the new header from then on.  In front of a
loop nobody asks for the header, so nothing is seen of this.  For a back edge the header decides
which hint is found, and once blocks are mapped to the graph before, the change is seen.

* `Call.backedgeHeader?`, `headersGiven`, `hintsGiven`: what the reports say about a block.
* `call_eq_error`: what a refused report does.
* `SameView`: agreement on everything that answers depend on; reports keep it (`SameView.call`,
  `SameView.after`).
* `addedBackedges_after`, `hint?_after`: the last header and the first hint that were reported
  count.
* `refused_unseen_iff`: when nothing is seen of a refused report.
-/

namespace Warrant

namespace LoopHints

variable {t t' : LoopHints} {c : Call} {cs : List Call} {id header : BlockId}

/-! ## Reports and answers -/

/-- What is known after the reports `cs` have been taken in order. -/
def after (t : LoopHints) (cs : List Call) : LoopHints := cs.foldl (fun t c => (t.call c).2) t

/-- `after` the reports `cs` and then `ds`. -/
private theorem after_append (t : LoopHints) (cs ds : List Call) :
    t.after (cs ++ ds) = (t.after cs).after ds :=
  List.foldl_append

/-- The header that a report gives to the block `id`, if it says that this was added for a back
    edge. -/
def Call.backedgeHeader? (id : BlockId) : Call → Option BlockId
  | .addedBackedge other header => if other = id then some header else none
  | _ => none

/-- The headers that are reported for the block `id` added for a back edge. -/
def headersGiven (cs : List Call) (id : BlockId) : List BlockId :=
  cs.filterMap (Call.backedgeHeader? id)

/-- The hints that are reported for the header `header`. -/
def hintsGiven (cs : List Call) (header : BlockId) : List LoopHint :=
  cs.filterMap (Call.hintFor? header)

/-- Every question about loops has the same answer for `t` and `t'`. -/
structure AnswersAlike (t t' : LoopHints) : Prop where
  backedgeHeaders? : ∀ id, t.backedgeHeaders? id = t'.backedgeHeaders? id
  addedBackedge? : ∀ id, t.addedBackedge? id = t'.addedBackedge? id
  isAddedEntry : ∀ id, t.isAddedEntry id = t'.isAddedEntry id
  hint? : ∀ header, t.hint? header = t'.hint? header
  hint : ∀ header, t.hint header = t'.hint header
  validate : ∀ g, t.validate g = t'.validate g

/-! ## Refused reports -/

/-- A check that refuses what is `held` fails only with its own error. -/
private theorem held_of_refused {held : Bool} {e e' : FlowError}
    (h : (if held then .error e' else .ok () : Except FlowError Unit) = .error e) :
    held ∧ e = e' := by
  cases held with
  | true => exact ⟨rfl, (Except.error.inj h).symm⟩
  | false => cases h

/-- A refused `LoopHints.call` is for a block that was reported before.  A hint is dropped; for an
    added block the new header is kept. -/
theorem call_eq_error {e : FlowError} (h : (t.call c).1 = .error e) :
    (∃ header hint, c = .hint header hint ∧ t.hints.contains header ∧ e = .duplicateHint header ∧
      (t.call c).2 = t) ∨
    (∃ id header, c = .addedBackedge id header ∧ t.addedBackedges.contains id ∧
      e = .duplicateSynthetic id ∧
      (t.call c).2 = { t with addedBackedges := t.addedBackedges.insert id header }) ∨
    ∃ id header, c = .addedEntry id header ∧ t.addedEntries.contains id ∧
      e = .duplicateSynthetic id ∧
      (t.call c).2 = { t with addedEntries := t.addedEntries.insert id header } := by
  cases c with
  | hint header hint =>
    rw [call_hint, apply_ite Prod.fst] at h
    obtain ⟨hheld, rfl⟩ := held_of_refused h
    exact .inl ⟨header, hint, rfl, hheld, rfl, by rw [call_hint, if_pos hheld]⟩
  | addedBackedge id header =>
    obtain ⟨hheld, rfl⟩ := held_of_refused h
    exact .inr (.inl ⟨id, header, rfl, hheld, rfl, rfl⟩)
  | addedEntry id header =>
    obtain ⟨hheld, rfl⟩ := held_of_refused h
    exact .inr (.inr ⟨id, header, rfl, hheld, rfl, rfl⟩)
  | toBefore m => cases h

/-! ## What answers depend on -/

/-- Agreement on all that is known of loops but the headers in `addedEntries`. -/
structure SameView (t t' : LoopHints) : Prop where
  backEdges : t.backEdges = t'.backEdges
  hints : t.hints = t'.hints
  addedBackedges : t.addedBackedges = t'.addedBackedges
  addedEntries : ∀ id, t.addedEntries.contains id = t'.addedEntries.contains id
  toBefore : t.toBefore = t'.toBefore

namespace SameView

/-- What is known agrees with itself. -/
theorem refl (t : LoopHints) : SameView t t := ⟨rfl, rfl, rfl, fun _ => rfl, rfl⟩

/-- `LoopHints.call` keeps a `SameView`. -/
theorem call (h : SameView t t') (c : Call) : SameView (t.call c).2 (t'.call c).2 := by
  cases c with
  | hint header hint =>
    -- The same hints refuse the same report.
    rw [call_hint, call_hint, h.hints]
    split
    · exact h
    · exact ⟨h.backEdges, rfl, h.addedBackedges, h.addedEntries, h.toBefore⟩
  | addedBackedge id header =>
    exact ⟨h.backEdges, h.hints, congrArg (Table.insert · id header) h.addedBackedges,
      h.addedEntries, h.toBefore⟩
  | addedEntry id header =>
    refine ⟨h.backEdges, h.hints, h.addedBackedges, fun other => ?_, h.toBefore⟩
    show (t.addedEntries.insert id header).contains other =
      (t'.addedEntries.insert id header).contains other
    rw [Table.contains_insert, Table.contains_insert, h.addedEntries]
  | toBefore m => exact ⟨h.backEdges, h.hints, h.addedBackedges, h.addedEntries, rfl⟩

/-- `LoopHints.after` any number of reports there is still a `SameView`. -/
theorem after (h : SameView t t') (cs : List Call) : SameView (t.after cs) (t'.after cs) := by
  induction cs generalizing t t' with
  | nil => exact h
  | cons c cs ih => exact ih (h.call c)

/-- With a `SameView` all answers are alike, as no question reaches the headers in
    `addedEntries`. -/
private theorem answersAlike (h : SameView t t') : AnswersAlike t t' := by
  obtain ⟨backEdges, hints, addedBackedges, addedEntries, toBefore⟩ := t
  obtain ⟨rfl, rfl, rfl, hentries, rfl⟩ := h
  refine ⟨fun _ => rfl, fun _ => rfl, fun id => ?_, fun _ => rfl, fun _ => rfl, fun _ => rfl⟩
  simp only [isAddedEntry, before, hentries]

/-- A refused report about a block in front of a loop keeps the `SameView`. -/
private theorem insert_addedEntries (hheld : t.addedEntries.contains id) :
    SameView t { t with addedEntries := t.addedEntries.insert id header } := by
  refine ⟨rfl, rfl, rfl, fun other => ?_, rfl⟩
  rw [Table.contains_insert]
  by_cases heq : id = other
  · rw [← heq, hheld, Bool.or_true]
  · rw [decide_eq_false heq, Bool.false_or]

end SameView

/-! ## What the reports leave -/

/-- The header that a report gives to a block replaces the one in `addedBackedges`. -/
private theorem addedBackedges_call (t : LoopHints) (c : Call) (id : BlockId) :
    (t.call c).2.addedBackedges.get? id = (c.backedgeHeader? id).or (t.addedBackedges.get? id) := by
  cases c with
  | hint header hint =>
    rw [call_hint]
    split <;> rfl
  | addedBackedge other header =>
    show (t.addedBackedges.insert other header).get? id = _
    rw [Table.get?_insert, Call.backedgeHeader?]
    split <;> rfl
  | addedEntry | toBefore => rfl

/-- In `addedBackedges` a block has the last header that was reported for it. -/
theorem addedBackedges_after (t : LoopHints) (cs : List Call) (id : BlockId) :
    (t.after cs).addedBackedges.get? id =
      (headersGiven cs id).getLast?.or (t.addedBackedges.get? id) := by
  induction cs generalizing t with
  | nil => rfl
  | cons c cs ih =>
    show ((t.call c).2.after cs).addedBackedges.get? id = _
    rw [ih, addedBackedges_call, headersGiven, headersGiven, List.filterMap_cons]
    cases c.backedgeHeader? id with
    | none => rfl
    | some header =>
      rw [List.getLast?_cons]
      -- The first header counts only if no other comes later.
      cases (cs.filterMap (Call.backedgeHeader? id)).getLast? <;> rfl

/-- `hint?` has the first hint that was reported for a header. -/
theorem hint?_after (t : LoopHints) (cs : List Call) (header : BlockId) :
    (t.after cs).hint? header = (t.hint? header).or (hintsGiven cs header).head? := by
  induction cs generalizing t with
  | nil => exact (Option.or_none).symm
  | cons c cs ih =>
    show ((t.call c).2.after cs).hint? header = _
    rw [ih, hint?_call, hintsGiven, hintsGiven, List.filterMap_cons, Option.or_assoc]
    cases c.hintFor? header <;> rfl

/-! ## The header of an added block -/

section

variable {m : StageMap} {block : BlockId} (hm : t.toBefore = some m)
  (hblock : m.get? block = some id)

include hm hblock

/-- `before` follows the map that was reported. -/
private theorem before_eq_ok : t.before block = .ok id := by
  simp only [before, hm, StageMap.resolve, hblock]

/-- `addedBackedge?` finds nothing for a block that was not noted. -/
private theorem addedBackedge?_of_none (h : t.addedBackedges.get? id = none) :
    t.addedBackedge? block = .ok none := by
  rw [addedBackedge?, before_eq_ok hm hblock]
  simp only [bind, Except.bind, h]
  rfl

/-- `addedBackedge?` finds the header that was noted, if there is a hint for it. -/
private theorem addedBackedge?_of_some (h : t.addedBackedges.get? id = some header) :
    t.addedBackedge? block = (t.hint header).map fun hint => some (header, hint) := by
  rw [addedBackedge?, before_eq_ok hm hblock]
  simp only [bind, Except.bind, h]
  cases t.hint header <;> rfl

/-- `addedBackedge?` finds a block with the header that is noted for the block before. -/
private theorem addedBackedge?_eq_some_iff {hint : LoopHint} :
    t.addedBackedge? block = .ok (some (header, hint)) ↔
      t.addedBackedges.get? id = some header ∧ t.hint? header = some hint := by
  cases hnoted : t.addedBackedges.get? id with
  | none =>
    rw [addedBackedge?_of_none hm hblock hnoted]
    simp
  | some noted =>
    rw [addedBackedge?_of_some hm hblock hnoted, LoopHints.hint]
    cases hheld : t.hint? noted with
    | none =>
      -- A header without a hint is an error, and not a loop.
      simp only [Except.map, reduceCtorEq, false_iff]
      rintro ⟨heq, hhint⟩
      rw [← Option.some.inj heq, hheld] at hhint
      cases hhint
    | some held =>
      simp only [Except.map, Except.ok.injEq, Option.some.injEq, Prod.mk.injEq]
      refine and_congr_right fun heq => ?_
      rw [← heq, hheld, Option.some.injEq]

end

/-- The header of an added block can be read off the answer of `addedBackedge?`, even where the hint
    for it is missing. -/
private theorem AnswersAlike.header_eq {m : StageMap} {block header' : BlockId}
    (h : AnswersAlike t t') (hm : t.toBefore = some m) (hm' : t'.toBefore = some m)
    (hblock : m.get? block = some id) (hnoted : t.addedBackedges.get? id = some header)
    (hnoted' : t'.addedBackedges.get? id = some header') : header = header' := by
  have hanswer := h.addedBackedge? block
  rw [addedBackedge?_of_some hm hblock hnoted, addedBackedge?_of_some hm' hblock hnoted'] at hanswer
  rw [LoopHints.hint, LoopHints.hint] at hanswer
  -- An answer and an error both name the header, and neither is the other.
  revert hanswer
  cases t.hint? header <;> cases t'.hint? header' <;> intro hanswer <;> cases hanswer <;> rfl

/-! ## Histories with a refused report -/

section

variable (g : Graph)

/-- `addedBackedges_after` for reports about a new graph. -/
private theorem addedBackedges_ofGraph_after (cs : List Call) (id : BlockId) :
    ((ofGraph g).after cs).addedBackedges.get? id = (headersGiven cs id).getLast? := by
  rw [addedBackedges_after]
  exact Option.or_none

/-- `hint?_after` for reports about a new graph. -/
private theorem hint?_ofGraph_after (cs : List Call) (header : BlockId) :
    ((ofGraph g).after cs).hint? header = (hintsGiven cs header).head? :=
  hint?_after (ofGraph g) cs header

/-- A refused report that does not change the header of a block for a back edge leaves a
    `SameView`. -/
private theorem sameView_of_refused {e : FlowError}
    (h : (((ofGraph g).after cs).call c).1 = .error e)
    (hheader : ∀ id header, c = .addedBackedge id header →
      (headersGiven cs id).getLast? = some header) :
    SameView ((ofGraph g).after cs) (((ofGraph g).after cs).call c).2 := by
  rcases call_eq_error h with
    ⟨_, _, rfl, _, _, hcall⟩ | ⟨id, header, rfl, _, _, hcall⟩ | ⟨id, header, rfl, hheld, _, hcall⟩
  · exact hcall.symm ▸ .refl _
  · -- The block gets the header that it has.
    rw [hcall]
    refine ⟨rfl, rfl, Table.ext fun other => ?_, fun _ => rfl, rfl⟩
    rw [Table.get?_insert]
    split
    case isTrue heq => rw [← heq, addedBackedges_ofGraph_after, hheader id header rfl]
    case isFalse => rfl
  · exact hcall.symm ▸ .insert_addedEntries hheld

/-- If all answers are alike after a refused report, under any map, then it gives a block for a back
    edge the header that it has. -/
private theorem header_eq_of_unseen {e : FlowError}
    (h : (((ofGraph g).after cs).call (.addedBackedge id header)).1 = .error e)
    (hunseen : ∀ m, AnswersAlike ((ofGraph g).after (cs ++ [.toBefore m]))
      ((ofGraph g).after (cs ++ [.addedBackedge id header, .toBefore m]))) :
    (headersGiven cs id).getLast? = some header := by
  -- The report was refused, so the block has a header.
  obtain ⟨old, hold⟩ : ∃ old, ((ofGraph g).after cs).addedBackedges.get? id = some old := by
    rcases call_eq_error h with ⟨_, _, hc, _⟩ | ⟨_, _, hc, hheld, _⟩ | ⟨_, _, hc, _⟩ <;> cases hc
    exact Option.isSome_iff_exists.1 hheld
  -- A map that sends the block to itself is enough.
  have halike := hunseen (({} : StageMap).link id id)
  rw [after_append, after_append] at halike
  have hself : (({} : StageMap).link id id).get? id = some id := by
    show (Table.insert _ id id).get? id = _
    rw [Table.get?_insert, if_pos rfl]
  have hnew : (((ofGraph g).after cs).addedBackedges.insert id header).get? id = some header := by
    rw [Table.get?_insert, if_pos rfl]
  rw [← addedBackedges_ofGraph_after g, hold, halike.header_eq rfl rfl hself hold hnew]

/-- Nothing is seen of a refused report (`AnswersAlike`), whatever is reported later, unless it
    gives another header to a block that was added for a back edge; and then some map shows it.  A
    block for a back edge is found with the last header that was reported for it, refused or not,
    and with the first hint that was reported for that header. -/
theorem refused_unseen_iff (cs : List Call) (c : Call) (e : FlowError)
    (h : (((ofGraph g).after cs).call c).1 = .error e) :
    [∀ later, AnswersAlike ((ofGraph g).after (cs ++ later)) ((ofGraph g).after (cs ++ c :: later)),
      ∀ m, AnswersAlike ((ofGraph g).after (cs ++ [.toBefore m]))
        ((ofGraph g).after (cs ++ [c, .toBefore m])),
      ∀ id header, c = .addedBackedge id header →
        (headersGiven cs id).getLast? = some header].TFAE ∧
    ∀ later m block id header hint, ((ofGraph g).after (cs ++ c :: later)).toBefore = some m →
      m.get? block = some id →
      (((ofGraph g).after (cs ++ c :: later)).addedBackedge? block = .ok (some (header, hint)) ↔
        (headersGiven (cs ++ c :: later) id).getLast? = some header ∧
        (hintsGiven (cs ++ c :: later) header).head? = some hint) := by
  constructor
  · -- Maps are reported too, so the first form has the second as a case.
    tfae_have 1 → 2 := fun hunseen m => hunseen [.toBefore m]
    tfae_have 2 → 3 := by
      rintro hunseen id header rfl
      exact header_eq_of_unseen g h hunseen
    tfae_have 3 → 1 := by
      intro hheader later
      rw [after_append, after_append]
      exact ((sameView_of_refused g h hheader).after later).answersAlike
    tfae_finish
  · intro later m block id header hint hm hblock
    rw [addedBackedge?_eq_some_iff hm hblock, addedBackedges_ofGraph_after, hint?_ofGraph_after]

end

/-- Two blocks without edges. -/
def twoBlocks : Graph where
  entry := 0
  blocks := .ofList [(0, ⟨"b0", []⟩), (1, ⟨"b1", []⟩)]
  edges := []
  entry_mem := by decide
  mem_of_edge := by decide
  nodup_edges := by decide

/-- Hints for both blocks, and a block that was added for a back edge to the first. -/
def twoHints : List Call :=
  [.hint 0 ⟨[.lit (.bool true)], []⟩, .hint 1 ⟨[.lit (.bool false)], []⟩, .addedBackedge 7 0]

/-- After `twoHints` the same header once more is not seen, and another one is. -/
theorem refused_unseen_iff_twoHints :
    (∀ later, AnswersAlike ((ofGraph twoBlocks).after (twoHints ++ later))
      ((ofGraph twoBlocks).after (twoHints ++ .addedBackedge 7 0 :: later))) ∧
    ¬∀ later, AnswersAlike ((ofGraph twoBlocks).after (twoHints ++ later))
      ((ofGraph twoBlocks).after (twoHints ++ .addedBackedge 7 1 :: later)) := by
  constructor
  · refine ((refused_unseen_iff twoBlocks twoHints (.addedBackedge 7 0) (.duplicateSynthetic 7)
        rfl).1.out 0 2).2 ?_
    intro id header heq
    cases heq
    rfl
  · intro hunseen
    -- Otherwise header 1 would be the last that was given for the block, which is 0.
    have hheader : ∀ id header, Call.addedBackedge 7 1 = .addedBackedge id header →
        (headersGiven twoHints id).getLast? = some header :=
      ((refused_unseen_iff twoBlocks twoHints (.addedBackedge 7 1) (.duplicateSynthetic 7)
        rfl).1.out 0 2).1 hunseen
    exact absurd (hheader 7 1 rfl) (by decide)

/-- After `twoHints` a refused report gives an added block another header, and with it another
    hint. -/
theorem refused_report_changes_header :
    (((ofGraph twoBlocks).after twoHints).call (.addedBackedge 7 1)).1 =
      .error (.duplicateSynthetic 7) ∧
    ((ofGraph twoBlocks).after (twoHints ++ [.toBefore (.link {} 17 7)])).addedBackedge? 17 =
      .ok (some (0, ⟨[.lit (.bool true)], []⟩)) ∧
    ((ofGraph twoBlocks).after
      (twoHints ++ [.addedBackedge 7 1, .toBefore (.link {} 17 7)])).addedBackedge? 17 =
      .ok (some (1, ⟨[.lit (.bool false)], []⟩)) :=
  ⟨rfl, rfl, rfl⟩

end LoopHints

end Warrant
