import Warrant.Proofs.BlockOrder
import Warrant.Proofs.Origins

/-!
# Hints of blocks in documents

Hints for the verification condition come one by one, for the blocks of the final graph in any
order.  A session keeps them under their blocks, and no other call touches them: once the final
graph is known, no further report is taken.  The document has one definition for each block with
hints.  Its place is that of the block in the backward order, which has every block of the graph
once, those that the entry does not reach included.

* `HintsKept.step`: a call adds to the hints of the blocks what it adds to the history.
* `BlockHints.forall₂_definitions`: the definitions for the blocks with hints.
* `Session.hint_definitions`: what a document has of the hints.
-/

namespace Warrant

/-! ## Definitions -/

/-- `List.filterMap` gives one result for each item of a `List.filter`, if `f` has a result for
    exactly these. -/
private theorem forall₂_filter_filterMap {α β : Type} {p : α → Bool} {f : α → Option β}
    {R : α → β → Prop} {l : List α} (hpos : ∀ a ∈ l, p a = true → ∃ b, f a = some b ∧ R a b)
    (hneg : ∀ a ∈ l, p a = false → f a = none) : List.Forall₂ R (l.filter p) (l.filterMap f) := by
  induction l with
  | nil => exact .nil
  | cons a l ih =>
    have hrest := ih (fun b hb => hpos b (List.mem_cons_of_mem a hb))
      (fun b hb => hneg b (List.mem_cons_of_mem a hb))
    cases hp : p a with
    | true =>
      obtain ⟨b, hb, hab⟩ := hpos a List.mem_cons_self hp
      rw [List.filter_cons_of_pos hp, List.filterMap_cons_some hb]
      exact .cons hab hrest
    | false =>
      rw [List.filter_cons_of_neg (by rw [hp]; exact Bool.false_ne_true),
        List.filterMap_cons_none (hneg a List.mem_cons_self hp)]
      exact hrest

namespace BlockHints

/-- `BlockHints.definition` of a block, written out. -/
private theorem definition_eq (block : Block) (hints : List VcHint) :
    definition block hints = .definition (block.label ++ "_hints")
      ⟨[], .list (hints.map fun h =>
        .tuple [h.expr, h.post, h.result,
          .ident (if h.subsumption = .never then "SubsumptionNever"
            else if h.subsumption = .always then "SubsumptionAlways"
            else "SubsumptionNotForQuantifiers")])⟩ := by
  refine congrArg (fun tuples => Decl.definition (block.label ++ "_hints") ⟨[], .list tuples⟩) ?_
  refine List.map_congr_left fun h _ => ?_
  obtain ⟨expr, post, result, subsumption⟩ := h
  cases subsumption <;> rfl

/-- `BlockHints.add` puts a hint behind those that its block has. -/
private theorem get?_add (t : BlockHints) (id : BlockId) (hint : VcHint) (j : BlockId) :
    (t.add id hint).get? j = if id = j then some ((t.get? id).getD [] ++ [hint]) else t.get? j :=
  Table.get?_insert ..

/-- `BlockHints.definitions` has one definition for each block with hints, with these hints. -/
theorem forall₂_definitions {t : BlockHints} (hne : ∀ id, t.get? id ≠ some []) (g : Graph) :
    List.Forall₂ (fun id d => ∃ block, g.block? id = some block ∧
      d = definition block ((t.get? id).getD []))
      (g.backwards.filter fun id => (t.get? id).getD [] ≠ []) (t.definitions g) := by
  refine forall₂_filter_filterMap (fun id hid hhints => ?_) (fun id _ hhints => ?_)
  · -- The backward order has blocks of the graph only.
    obtain ⟨block, hblock⟩ := Option.isSome_iff_exists.1
      ((g.mem_ids_iff_contains id).1 (g.backwards_perm.mem_iff.1 hid))
    cases ht : t.get? id with
    | none => simp [ht] at hhints
    | some hints =>
      have hblock : g.block? id = some block := hblock
      exact ⟨_, by rw [hblock]; rfl, block, hblock, rfl⟩
  · -- A block without hints is not in the table.
    cases ht : t.get? id with
    | none => rfl
    | some hints =>
      simp only [ht, Option.getD_some, ne_eq, decide_eq_false_iff_not, not_not] at hhints
      exact absurd (hhints ▸ ht) (hne id)

end BlockHints

namespace Session

/-! ## Accepted hints -/

/-- The hint for the block `id` that a call gave, if it was accepted. -/
def acceptedHint? (id : BlockId) : Event → Option VcHint
  | (.hint id' hint, .ok _) => if id' = id then some hint else none
  | _ => none

/-- The hints for the block `id` that were accepted, in the order of the calls. -/
def acceptedHints (events : List Event) (id : BlockId) : List VcHint :=
  events.filterMap (acceptedHint? id)

/-- `acceptedHints` of one more call. -/
private theorem acceptedHints_append (events : List Event) (e : Event) (id : BlockId) :
    acceptedHints (events ++ [e]) id = acceptedHints events id ++ (acceptedHint? id e).toList :=
  filterMap_concat ..

/-- `acceptedHint?` has the hint of a call that was accepted. -/
private theorem acceptedHint?_eq_some_iff {id : BlockId} {e : Event} {hint : VcHint} :
    acceptedHint? id e = some hint ↔ ∃ answer, e = (.hint id hint, .ok answer) := by
  constructor
  · intro h
    unfold acceptedHint? at h
    split at h
    · split at h
      · next heq =>
        obtain rfl := Option.some.inj h
        exact ⟨_, by rw [heq]⟩
      · cases h
    · cases h
  · rintro ⟨answer, rfl⟩
    exact if_pos rfl

/-- `acceptedHints` are those of the calls that were accepted. -/
private theorem mem_acceptedHints_iff {events : List Event} {id : BlockId} {hint : VcHint} :
    hint ∈ acceptedHints events id ↔ ∃ answer, (.hint id hint, .ok answer) ∈ events := by
  simp only [acceptedHints, List.mem_filterMap, acceptedHint?_eq_some_iff]
  constructor
  · rintro ⟨e, he, answer, rfl⟩
    exact ⟨answer, he⟩
  · rintro ⟨answer, he⟩
    exact ⟨_, he, answer, rfl⟩

/-! ## Hints that a session keeps -/

/-- `hintAccepted` holds after the report of the final graph, for its blocks. -/
private theorem mem_ids_of_hintAccepted {s : Session} {id : BlockId}
    (h : s.hintAccepted id = .ok ()) :
    s.reached = .afterUnreachablePruning ∧ ∃ g, s.finalGraph = some g ∧ id ∈ g.ids := by
  obtain ⟨_, hreached, h⟩ := bind_eq_ok_iff.1 h
  unfold require at hreached
  split at hreached
  case isFalse => cases hreached
  case isTrue hlast =>
    refine ⟨hlast, ?_⟩
    cases hgraph : s.finalGraph with
    | none =>
      rw [hgraph] at h
      cases h
    | some g =>
      refine ⟨g, rfl, (g.mem_ids_iff_contains id).2 ?_⟩
      -- For another block the answer would be `unknownBlock`.
      by_contra hid
      simp only [hgraph, Option.any_some, hid] at h
      cases h

/-- The `vcHints` of a session agree with its history. -/
structure HintsKept (events : List Event) (s : Session) : Prop where
  hints : ∀ id, (s.vcHints.get? id).getD [] = acceptedHints events id
  nonempty : ∀ id, s.vcHints.get? id ≠ some []
  /-- There are hints for blocks of the final graph only, and none before it is reported. -/
  blocks : ∀ id, acceptedHints events id ≠ [] →
    passed s.reached = reports ∧ ∃ g, s.finalGraph = some g ∧ id ∈ g.ids

namespace HintsKept

variable {events : List Event} {s s' : Session} {c : Call} {a : Answer}

/-- A new session has no hints, so `HintsKept` holds. -/
theorem new (config : Config) : HintsKept [] { config } where
  hints _ := rfl
  nonempty _ h := nomatch h
  blocks _ h := absurd rfl h

/-- A call that gives no hint keeps the `vcHints` that there are. -/
theorem keep (h : HintsKept events s) (hnone : ∀ id, acceptedHint? id (c, a) = none)
    (hhints : s'.vcHints = s.vcHints) (hblocks : ∀ id, acceptedHints events id ≠ [] →
      passed s'.reached = passed s.reached ∧ s'.finalGraph = s.finalGraph) :
    HintsKept (events ++ [(c, a)]) s' := by
  have hsame (id : BlockId) : acceptedHints (events ++ [(c, a)]) id = acceptedHints events id := by
    rw [acceptedHints_append, hnone, Option.toList_none, List.append_nil]
  refine ⟨fun id => ?_, fun id => ?_, fun id hid => ?_⟩
  · rw [hhints, hsame]
    exact h.hints id
  · rw [hhints]
    exact h.nonempty id
  · rw [hsame] at hid
    obtain ⟨hpassed, hgraph⟩ := hblocks id hid
    rw [hpassed, hgraph]
    exact h.blocks id hid

/-- An accepted hint comes behind those that its block has, so `HintsKept` holds on. -/
theorem add (h : HintsKept events s) {id : BlockId} (hid : s.hintAccepted id = .ok ())
    (hint : VcHint) :
    HintsKept (events ++ [(.hint id hint, .ok none)])
      { s with vcHints := s.vcHints.add id hint } := by
  obtain ⟨hreached, g, hgraph, hmem⟩ := mem_ids_of_hintAccepted hid
  refine ⟨fun j => ?_, fun j => ?_, fun j hj => ?_⟩
  · show ((s.vcHints.add id hint).get? j).getD [] = _
    rw [BlockHints.get?_add, acceptedHints_append, ← h.hints j]
    by_cases heq : id = j
    · simp [acceptedHint?, heq]
    · simp [acceptedHint?, heq]
  · show (s.vcHints.add id hint).get? j ≠ some []
    rw [BlockHints.get?_add]
    by_cases heq : id = j
    · simp [heq]
    · rw [if_neg heq]
      exact h.nonempty j
  · refine ⟨by rw [hreached]; rfl, g, hgraph, ?_⟩
    by_cases heq : id = j
    · exact heq ▸ hmem
    · -- The other hint was accepted for the same graph.
      have hj : acceptedHints events j ≠ [] := by
        simpa [acceptedHints_append, acceptedHint?, heq] using hj
      obtain ⟨_, g', hgraph', hj⟩ := h.blocks j hj
      rwa [Option.some.inj (hgraph.symm.trans hgraph')]

/-- Every `Step` adds to the hints of the blocks what it adds to the history. -/
theorem step (h : HintsKept events s) (hstep : Step s c a s') :
    HintsKept (events ++ [(c, a)]) s' := by
  cases hstep with
  | refused _ e => exact h.keep (fun _ => by cases c <;> rfl) rfl fun _ _ => ⟨rfl, rfl⟩
  | enter k hc hnext hentry =>
    refine h.keep (fun id => ?_) (by cases hentry <;> rfl) fun id hid => ?_
    · cases c with
      | hint => cases hc
      | _ => rfl
    · -- After the last report there is no further checkpoint to be reported.
      have hpassed := passed_next hnext hc
      rw [(h.blocks id hid).1] at hpassed
      cases k <;> cases hpassed
  | loop c outcome hints => exact h.keep (fun _ => rfl) rfl fun _ _ => ⟨rfl, rfl⟩
  | hint id hint hid => exact h.add hid hint
  | document vc enclosing theory hassemble =>
    refine h.keep (fun _ => rfl) rfl fun _ _ => ⟨?_, rfl⟩
    rw [(s.assemble_eq_ok_iff.1 hassemble).1]
    rfl

end HintsKept

/-- Every `run` has the hints that it accepted. -/
private theorem run_hintsKept (config : Config) (calls : List Call) :
    HintsKept (history config calls) (run { config } calls).2 :=
  history_preserves (HintsKept.new config) (fun {_ s} c h => h.step (s.call_step c)) calls

/-! ## Documents -/

/-- The `finalGraph` of a session is the one whose report it accepted. -/
private theorem finalGraph_reported (config : Config) (calls : List Call) {g : Graph}
    (h : (run { config } calls).2.finalGraph = some g) :
    ∃ m, (.afterUnreachablePruning ⟨g, m⟩, .ok none) ∈ history config calls := by
  refine history_preserves (P := fun events s => s.finalGraph = some g →
    ∃ m, (.afterUnreachablePruning ⟨g, m⟩, .ok none) ∈ events) (fun h => nomatch h) ?_ calls h
  intro events s c hs hgraph
  have hstep := s.call_step c
  generalize (s.call c).1 = a, (s.call c).2 = s' at *
  -- Every call but the report of the final graph keeps it.
  have hearlier (h : s.finalGraph = some g) :
      ∃ m, (.afterUnreachablePruning ⟨g, m⟩, .ok none) ∈ events ++ [(c, a)] := by
    obtain ⟨m, hm⟩ := hs h
    exact ⟨m, List.mem_append_left _ hm⟩
  cases hstep with
  | enter k hc hnext hentry =>
    cases hentry with
    | final snapshot m hm =>
      obtain rfl := Option.some.inj hgraph
      exact ⟨snapshot.toPrevious, List.mem_append_right _ List.mem_cons_self⟩
    | _ => exact hearlier hgraph
  | _ => exact hearlier hgraph

/-- A document has the hints that were accepted, however the calls for them were interleaved and
    whatever was refused in between: for each block with hints one definition `<label>_hints`, with
    the hints of the block in the order of the calls, and the definitions in the order of
    `backwards` of the final graph.  Each hint is the tuple of its own `expr`, `post`, `result` and
    `subsumption`.  Without hints, only these definitions would be missing. -/
theorem hint_definitions {config : Config} {calls : List Call} {vc : VcInput}
    {enclosing : List Scope} {theory : Theory}
    (hdocument : ((run { config } calls).2.call (.generate vc enclosing)).1 = .ok (some theory)) :
    ∃ g lemmas definitions proof, (run { config } calls).2.finalGraph = some g ∧
      (∃ m, (.afterUnreachablePruning ⟨g, m⟩, .ok none) ∈ history config calls) ∧
      (∀ id hint answer, (.hint id hint, .ok answer) ∈ history config calls → id ∈ g.backwards) ∧
      g.backwards.Nodup ∧
      List.Forall₂ (fun id d => ∃ block, g.block? id = some block ∧
          d = .definition (block.label ++ "_hints")
            ⟨[], .list ((acceptedHints (history config calls) id).map fun h =>
              .tuple [h.expr, h.post, h.result,
                .ident (if h.subsumption = .never then "SubsumptionNever"
                  else if h.subsumption = .always then "SubsumptionAlways"
                  else "SubsumptionNotForQuantifiers")])⟩)
        (g.backwards.filter fun id => acceptedHints (history config calls) id ≠ []) definitions ∧
      theory.decls = lemmas ++ definitions ++ proof ∧
      { (run { config } calls).2 with vcHints := .empty }.assemble vc enclosing =
        .ok { theory with decls := lemmas ++ proof } := by
  have hkept := run_hintsKept config calls
  have hreported {g : Graph} := finalGraph_reported config calls (g := g)
  generalize (run { config } calls).2 = s at *
  have hassemble := s.call_generate_eq_ok_iff.1 hdocument
  obtain ⟨hreached, program, g, created, catalog, proof, hprogram, hgraph, hcreated, hadd, hproof,
    rfl⟩ := s.assemble_eq_ok_iff.1 hassemble
  refine ⟨g, catalog.scope.decls, s.vcHints.definitions g, proof, hgraph, hreported hgraph, ?_,
    g.backwards_perm.nodup_iff.2 g.nodup_ids, ?_, rfl, ?_⟩
  · intro id hint answer hhint
    obtain ⟨_, g', hgraph', hid⟩ :=
      hkept.blocks id (List.ne_nil_of_mem (mem_acceptedHints_iff.2 ⟨answer, hhint⟩))
    obtain rfl := Option.some.inj (hgraph.symm.trans hgraph')
    exact g.backwards_perm.mem_iff.2 hid
  · have hdefinitions := BlockHints.forall₂_definitions hkept.nonempty g
    simp only [hkept.hints, BlockHints.definition_eq] at hdefinitions
    exact hdefinitions
  · -- The rest of the assembly does not read the hints.
    refine (assemble_eq_ok_iff _).2 ⟨hreached, program, g, created, catalog, proof, hprogram,
      hgraph, hcreated, hadd, hproof, ?_⟩
    have hnone : BlockHints.definitions .empty g = [] := List.filterMap_eq_nil_iff.2 fun _ _ => rfl
    simp only [hnone, List.append_nil]

/-- An entry with a block behind it, and a block that it does not reach. -/
def islandGraph : Graph :=
  (Graph.build (0, ⟨"entry", []⟩) [(1, ⟨"exit", []⟩), (2, ⟨"island", []⟩)] [(0, 1)]).toOption.getD
    oneBlock

/-- A hint that can be told from others by its numbers. -/
def numberedHint (n : Int) (subsumption : Subsumption) : VcHint :=
  ⟨.lit (.int n), .lit (.int (n + 10)), .lit (.int (n + 20)), subsumption⟩

/-- A session with hints for two of three blocks, in turns.  One hint comes too early, one is for a
    block that is not there, and a document is asked for with an axiom for an unknown variable. -/
def interleavedCalls : List Call :=
  [.program {}, .beforeAcyclification islandGraph, .hint 2 (numberedHint 0 .always),
   .beforeRenaming (.unchanged islandGraph), .afterRenaming [],
   .afterDeadBlockRemoval (.unchanged islandGraph),
   .afterUnreachablePruning (.unchanged islandGraph),
   .hint 2 (numberedHint 1 .never), .hint 0 (numberedHint 2 .notForQuantifiers),
   .hint 7 (numberedHint 3 .always), .generate (conditionWith (.variable "x")) [],
   .hint 2 (numberedHint 4 .always), .hint 0 (numberedHint 2 .notForQuantifiers)]

/-- After `interleavedCalls` the block that the entry does not reach has its two hints in order, and
    the entry has the same hint twice, each with its own `subsumption`. -/
theorem hint_definitions_interleaved :
    ∃ theory lemmas proof, documentAfter interleavedCalls = .ok (some theory) ∧
      theory.decls = lemmas ++
        [.definition "entry_hints" ⟨[], .list
          [.tuple [.lit (.int 2), .lit (.int 12), .lit (.int 22),
            .ident "SubsumptionNotForQuantifiers"],
           .tuple [.lit (.int 2), .lit (.int 12), .lit (.int 22),
            .ident "SubsumptionNotForQuantifiers"]]⟩,
         .definition "island_hints" ⟨[], .list
          [.tuple [.lit (.int 1), .lit (.int 11), .lit (.int 21), .ident "SubsumptionNever"],
           .tuple [.lit (.int 4), .lit (.int 14), .lit (.int 24), .ident "SubsumptionAlways"]]⟩] ++
        proof := by
  obtain ⟨theory, hdocument⟩ : ∃ theory, documentAfter interleavedCalls = .ok (some theory) :=
    ⟨_, rfl⟩
  obtain ⟨g, lemmas, definitions, proof, hgraph, -, -, -, hdefinitions, hdecls, -⟩ :=
    hint_definitions hdocument
  obtain rfl : islandGraph = g := Option.some.inj hgraph
  have hblocks : (islandGraph.backwards.filter fun id =>
      acceptedHints (history {} interleavedCalls) id ≠ []) = [0, 2] := rfl
  rw [hblocks] at hdefinitions
  obtain _ | ⟨⟨_, hentry, rfl⟩, _ | ⟨⟨_, hisland, rfl⟩, _ | _⟩⟩ := hdefinitions
  -- The labels of the two blocks give the names.
  obtain rfl := Option.some.inj hentry
  obtain rfl := Option.some.inj hisland
  exact ⟨theory, lemmas, proof, hdocument, hdecls⟩

end Session

end Warrant
