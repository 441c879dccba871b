import Warrant.Proofs.AssemblySuccess
import Warrant.Proofs.CheckpointOrder
import Warrant.Proofs.Disjointness

/-!
# When a session gives a document

A session without a scope around it registers all declarations of its program itself.  Whether it
then gives a document is decided by the program (`Program.Admissible`) and by the axioms of the
verification condition (`VcAxiomKind.Provable`), once all reports were accepted.  A session gives
one document only.

* `registered_iff`: a program can be registered exactly if it is admissible.
* `Trail.of_accepted`: what a session knows whose reports were all accepted.
-/

namespace Warrant

/-! ## Registering a program in its own scope -/

/-- A program whose declarations can be registered in one scope (`Registered`). -/
structure Program.Admissible (p : Program) : Prop where
  /-- The greatest id of a constant or global is below the least id of a parameter or local, if
      there are both. -/
  separated : ∀ hi ∈ p.globalIds.max?, ∀ lo ∈ p.localIds.min?, hi < lo
  functionNames : (p.functions.map Function.name).Nodup
  axiomIndices : (p.axioms.map SourceAxiom.index).Nodup
  variableIds : (p.allVariables.map Variable.id).Nodup
  variableTypes : ∀ v ∈ p.allVariables, v.Closed
  functionTypes : ∀ f ∈ p.functions, f.Scoped

/-- `catalog` is that of the program `p` in a scope of its own. -/
def Registered (config : Config) (p : Program) (catalog : Catalog) : Prop :=
  ∃ created, Catalog.create config {} p.globalIds p.localIds [] = .ok created ∧
    created.addProgram p = (.ok (), catalog)

section

variable {config : Config} {p : Program} {catalog : Catalog}

/-- After `Catalog.create` nothing is filed. -/
private theorem Catalog.filed_create_nil {created : Catalog} (h : config.generates = {})
    (hcreate : Catalog.create config {} p.globalIds p.localIds [] = .ok created) :
    created.filed = { generates := {}, enclosing := [] } := by
  obtain ⟨s, script, hs, _, _, rfl⟩ := Catalog.create_eq_ok hcreate
  rw [resolveScope_nil h] at hs
  obtain rfl := Except.ok.inj hs
  simp only [filed, ownScope, h, List.map_nil]

/-- A program can be `Registered` exactly if it is `Admissible`. -/
theorem registered_iff (h : config.generates = {}) :
    (∃ catalog, Registered config p catalog) ↔ p.Admissible := by
  constructor
  · intro ⟨catalog, created, hcreate, hadd⟩
    have hseparated := (Catalog.create_nil_succeeds_iff h).1 ⟨created, hcreate⟩
    -- The answer of `addProgram` tells of types and keys, and `Catalog.create` of ids.
    have houtcome := Catalog.addProgram_outcome (Catalog.filed_create_nil h hcreate) p
    rw [hadd] at houtcome
    obtain ⟨hfunctions, hvariables, hkeys⟩ := houtcome.ok_iff.1 rfl
    obtain ⟨hnames, hindices, hids⟩ := p.keys_nodup_iff.1 hkeys
    exact ⟨hseparated, hnames, hindices, hids, hvariables, hfunctions⟩
  · intro hp
    obtain ⟨created, hcreate⟩ := (Catalog.create_nil_succeeds_iff h).2 hp.separated
    have hkeys := p.keys_nodup_iff.2 ⟨hp.functionNames, hp.axiomIndices, hp.variableIds⟩
    have houtcome := Catalog.addProgram_outcome (Catalog.filed_create_nil h hcreate) p
    have hok := houtcome.ok_iff.2 ⟨hp.functionTypes, hp.variableTypes, hkeys⟩
    exact ⟨(created.addProgram p).2, created, hcreate, Prod.ext hok rfl⟩

/-- Every declaration of a `Registered` program can be cited. -/
theorem Registered.cited (h : config.generates = {}) (hcatalog : Registered config p catalog) :
    ∀ key ∈ p.keys, Succeeds (memberLemma catalog.chain key) := by
  intro key hkey
  obtain ⟨created, hcreate, hadd⟩ := hcatalog
  have houtcome := Catalog.addProgram_outcome (Catalog.filed_create_nil h hcreate) p
  rw [hadd] at houtcome
  have hmembers : catalog.scope.members.map Prod.fst = p.keys :=
    congrArg Filed.members (houtcome.view_eq rfl)
  refine (memberLemma_cons_succeeds_iff _ _ _).2 (.inl ?_)
  rw [hmembers]
  exact hkey

end

namespace Session

/-! ## What was recorded -/

/-- `recordAll` maps each name to its `sourceName`. -/
theorem get?_recordAll (t : Table String String) (names : List String) (name : String) :
    (recordAll t names).get? name =
      if name ∈ names then some (sourceName name) else t.get? name := by
  induction names generalizing t with
  | nil => simp [recordAll]
  | cons first names ih =>
    show (recordAll (t.insert first (sourceName first)) names).get? name = _
    rw [ih, Table.get?_insert]
    by_cases hname : name ∈ names
    · simp [hname]
    · by_cases hfirst : first = name
      · simp [hfirst]
      · simp [hname, hfirst, Ne.symm hfirst]

/-- `accepted?` has the checkpoint of a call that was accepted. -/
theorem accepted?_eq_some_iff {e : Event} {k : Checkpoint} :
    accepted? e = some k ↔ e.2.isOk = true ∧ e.1.checkpoint? = some k := by
  obtain ⟨c, answer | answer⟩ := e
  · exact iff_of_false (fun h => nomatch h) fun h => nomatch h.1
  · exact (and_iff_right rfl).symm

namespace Trail

variable {events trail : List Event} {s : Session} {p : Program} {names : List String}

/-- A session whose report `afterUnreachablePruning` was accepted has reached the last
    checkpoint. -/
theorem reached_of_accepted (h : Trail events trail s)
    (hlast : .afterUnreachablePruning ∈ Session.accepted events) :
    s.reached = .afterUnreachablePruning ∨ s.reached = .proofsGenerated := by
  rw [h.accepted] at hlast
  obtain ⟨e, he, hsome⟩ := List.mem_filterMap.1 hlast
  -- The report is in the trail, so its checkpoint was passed.
  have hpassed : some .afterUnreachablePruning ∈ (passed s.reached).map some := by
    rw [← h.checkpoints, ← (accepted?_eq_some_iff.1 hsome).2]
    exact List.mem_map_of_mem he
  cases hr : s.reached with
  | afterUnreachablePruning => exact .inl rfl
  | proofsGenerated => exact .inr rfl
  | _ =>
    rw [hr] at hpassed
    revert hpassed
    decide

/-- A session with an accepted report for each checkpoint has recorded the program, a final graph
    and all names of the renaming, and is at `afterUnreachablePruning` unless it has given a
    document. -/
theorem of_accepted (h : Trail events trail s)
    (haccepted : ∀ k ∈ reports, k ∈ Session.accepted events)
    (hprogram : (.program p, .ok none) ∈ events)
    (hnames : (.afterRenaming names, .ok none) ∈ events) :
    s.program = some p ∧ (∃ graph, s.finalGraph = some graph) ∧ s.renamed = recordAll .empty names ∧
      (∀ name ∈ names, declares p name = true) ∧
      (s.reached = .afterUnreachablePruning ↔ ∀ e ∈ events, ∀ theory, e.2 ≠ .ok (some theory)) := by
  have hlast : .afterUnreachablePruning ∈ Session.accepted events := haccepted _ (by decide)
  have hreached := h.reached_of_accepted hlast
  obtain ⟨p', a₁, g, acyclic, a₃, names', r, live, d, final, a₆, rfl⟩ :=
    h.complete (by rcases hreached with hr | hr <;> rw [hr] <;> rfl)
  -- The accepted reports are those of the trail.
  have hprogram := h.recorded _ hprogram rfl
  have hnames := h.recorded _ hnames rfl
  simp only [List.mem_cons, Prod.mk.injEq, reduceCtorEq, false_and, or_false, false_or,
    List.not_mem_nil, Call.program.injEq, Call.afterRenaming.injEq] at hprogram hnames
  obtain ⟨rfl, rfl⟩ := hprogram
  obtain ⟨rfl, rfl⟩ := hnames
  have hfacts := h.facts
  simp only [List.foldl_cons, List.foldl_nil, Facts.add_program, Facts.add_loops, Facts.add_acyclic,
    Facts.add_renames, Facts.add_live, Facts.add_final] at hfacts
  have hsome : s.program = some p := congrArg Facts.program hfacts
  have hfinal : s.finalGraph = if a₆.isOk then some final.graph else none :=
    congrArg Facts.final hfacts
  have ha₆ : a₆.isOk = true := by
    rw [h.accepted] at hlast
    obtain ⟨e, he, hsome⟩ := List.mem_filterMap.1 hlast
    obtain ⟨hok, hcheckpoint⟩ := accepted?_eq_some_iff.1 hsome
    simp only [List.mem_cons, List.not_mem_nil, or_false] at he
    rcases he with rfl | rfl | rfl | rfl | rfl | rfl <;> first | exact hok | cases hcheckpoint
  refine ⟨hsome, ⟨final.graph, by rw [hfinal, if_pos ha₆]⟩, congrArg Facts.renamed hfacts, ?_, ?_⟩
  · have hanswer : answerable s.program (.afterRenaming names, .ok none) := h.answers _ (by simp)
    obtain ⟨_, hdeclared⟩ | ⟨_, herror⟩ := hanswer p hsome
    · exact hdeclared
    · cases herror
  · have hdocuments := not_congr h.documents
    simp only [not_exists, not_and] at hdocuments
    refine Iff.trans ?_ hdocuments
    rcases hreached with hr | hr <;> simp [hr]

end Trail

/-! ## The document -/

/-- The assembly of a session with a `Registered` program is `Ready` for the names that the session
    has recorded. -/
private theorem ready_of_registered {s : Session} {p : Program} {names : List String}
    {graph : Graph} {catalog : Catalog} (hgen : s.config.generates = {})
    (hcatalog : Registered s.config p catalog) (hrenamed : s.renamed = recordAll .empty names)
    (hdeclared : ∀ name ∈ names, declares p name = true) (vc : VcInput) :
    (s.assembly catalog p graph vc).Ready names := by
  have hp : p.Admissible := (registered_iff hgen).1 ⟨catalog, hcatalog⟩
  refine ⟨hp.functionTypes, fun v hv => hp.variableTypes v (List.mem_append_right _ hv),
    hcatalog.cited hgen, ?_⟩
  intro name
  show ((s.renamed.get? name).bind (s.assembly catalog p graph vc).variableNamed?).isSome ↔
    name ∈ names
  rw [hrenamed, get?_recordAll]
  by_cases hname : name ∈ names
  · -- A recorded name comes from a parameter or local, as it was accepted.
    rw [if_pos hname, Option.bind_some, Assembly.variableNamed?_isSome_iff]
    refine iff_of_true ?_ hname
    obtain ⟨v, hv, hsource⟩ := List.any_eq_true.1 (hdeclared name hname)
    exact List.mem_map.2 ⟨v, hv, of_decide_eq_true hsource⟩
  · rw [if_neg hname]
    exact iff_of_false (by simp) hname

/-- A session that generates all declarations and whose reports were all accepted gives a document
    exactly if it has given none before, the program is `Admissible` and every axiom of the
    verification condition is `Provable`. -/
theorem root_document_iff {config : Config} {calls : List Call} {p : Program} {names : List String}
    (hgen : config.generates = {}) (haccepted : ∀ k ∈ reports, k ∈ accepted (history config calls))
    (hprogram : (.program p, .ok none) ∈ history config calls)
    (hnames : (.afterRenaming names, .ok none) ∈ history config calls) (vc : VcInput) :
    (∃ theory, ((run { config } calls).2.call (.generate vc [])).1 = .ok (some theory)) ↔
      (∀ e ∈ history config calls, ∀ theory, e.2 ≠ .ok (some theory)) ∧ p.Admissible ∧
        ∀ ax ∈ vc.axioms, ax.kind.Provable p names := by
  obtain ⟨trail, ht⟩ := run_trail config calls
  obtain ⟨hp, ⟨graph, hgraph⟩, hrenamed, hdeclared, hreached⟩ :=
    ht.of_accepted haccepted hprogram hnames
  have hconfig : (run { config } calls).2.config = config := run_config { config } calls
  -- From here on only the state matters, not how it came about.
  rw [← hreached]
  generalize (run { config } calls).2 = s at *
  obtain rfl := hconfig
  have hproof (catalog : Catalog) (hcatalog : Registered s.config p catalog) :
      Succeeds (s.assembly catalog p graph vc).proof ↔ ∀ ax ∈ vc.axioms, ax.kind.Provable p names :=
    (ready_of_registered hgen hcatalog hrenamed hdeclared vc).proof_succeeds_iff
  constructor
  · intro ⟨theory, hdocument⟩
    obtain ⟨hr, p', graph', created, catalog, proof, hp', hgraph', hcreate, hadd, hok, _⟩ :=
      s.assemble_eq_ok_iff.1 (s.call_generate_eq_ok_iff.1 hdocument)
    obtain rfl := Option.some.inj (hp.symm.trans hp')
    obtain rfl := Option.some.inj (hgraph.symm.trans hgraph')
    have hcatalog : Registered s.config p catalog := ⟨created, hcreate, hadd⟩
    exact ⟨hr, (registered_iff hgen).1 ⟨catalog, hcatalog⟩,
      (hproof catalog hcatalog).1 ⟨proof, hok⟩⟩
  · intro ⟨hr, hadmissible, haxioms⟩
    obtain ⟨catalog, hcatalog⟩ := (registered_iff hgen).2 hadmissible
    obtain ⟨proof, hok⟩ := (hproof catalog hcatalog).2 haxioms
    obtain ⟨created, hcreate, hadd⟩ := hcatalog
    exact ⟨_, s.call_generate_eq_ok_iff.2 (s.assemble_eq_ok_iff.2
      ⟨hr, p, graph, created, catalog, proof, hp, hgraph, hcreate, hadd, hok, rfl⟩)⟩

/-! ## A program with a polymorphic function -/

/-- A program with a declaration of each kind. -/
def polymorphicProgram : Program where
  functions := [⟨"length", ["t"], [("list", .ctor "List" [.var "t"])], .int⟩]
  axioms := [⟨0, .lit (.bool true)⟩]
  constants := [⟨"empty", .ctor "List" [.int], 0⟩]
  params := [⟨"x", .int, 7⟩]

/-- `polymorphicProgram` is `Admissible`. -/
private theorem polymorphicProgram_admissible : polymorphicProgram.Admissible where
  separated hi hhi lo hlo := by
    obtain rfl : 0 = hi := Option.some.inj hhi
    obtain rfl : 7 = lo := Option.some.inj hlo
    decide
  functionNames := by decide
  axiomIndices := by decide
  variableIds := by decide
  variableTypes v hv x := by
    obtain rfl | rfl : v = ⟨"empty", .ctor "List" [.int], 0⟩ ∨ v = ⟨"x", .int, 7⟩ := by
      simpa [Program.allVariables, Program.constsAndGlobals, Program.paramsAndLocals,
        polymorphicProgram] using hv
    all_goals rfl
  functionTypes f hf x hx := by
    obtain rfl := List.mem_singleton.1 hf
    obtain ⟨q, hq, hx⟩ | hx := hx
    · obtain rfl := List.mem_singleton.1 hq
      -- The parameter is a list of the type variable, and this is the one that is declared.
      obtain ⟨t, ht, hx⟩ := (SourceTy.mentions_ctor ..).1 hx
      obtain rfl := List.mem_singleton.1 ht
      obtain rfl := (SourceTy.mentions_var ..).1 hx
      exact List.mem_cons_self
    · cases hx

/-- The reports of a session about `polymorphicProgram`. -/
def polymorphicCalls : List Call :=
  [.program polymorphicProgram, .beforeAcyclification oneBlock,
    .beforeRenaming (.unchanged oneBlock), .afterRenaming ["x@0"],
    .afterDeadBlockRemoval (.unchanged oneBlock),
    .afterUnreachablePruning (.unchanged oneBlock)]

/-- A verification condition with one axiom, of the kind `kind`. -/
def conditionWith (kind : VcAxiomKind) : VcInput :=
  ⟨.lit (.bool true), [⟨"ax", .lit (.bool true), kind⟩]⟩

/-- An axiom about the renamed variable is `Provable`. -/
private theorem conditionWith_renamed_provable :
    ∀ ax ∈ (conditionWith (.variable "x@0")).axioms,
      ax.kind.Provable polymorphicProgram ["x@0"] := by
  intro ax hax
  obtain rfl := List.mem_singleton.1 hax
  exact .inr List.mem_cons_self

/-- After `polymorphicCalls` there is a document for an axiom about a renamed variable, and none for
    a source axiom. -/
theorem root_document_iff_polymorphic :
    (∃ theory, ((run { config := {} } polymorphicCalls).2.call
        (.generate (conditionWith (.variable "x@0")) [])).1 = .ok (some theory)) ∧
      ¬∃ theory, ((run { config := {} } polymorphicCalls).2.call
        (.generate (conditionWith .source) [])).1 = .ok (some theory) := by
  have hprogram : (.program polymorphicProgram, .ok none) ∈ history {} polymorphicCalls :=
    List.mem_of_getElem? (i := 0) rfl
  have hnames : (.afterRenaming ["x@0"], .ok none) ∈ history {} polymorphicCalls :=
    List.mem_of_getElem? (i := 3) rfl
  have hanswers : (history {} polymorphicCalls).map Prod.snd = List.replicate 6 (.ok none) := rfl
  have hdocuments : ∀ e ∈ history {} polymorphicCalls, ∀ theory, e.2 ≠ .ok (some theory) := by
    intro e he theory
    have hanswer : e.2 = .ok none := List.eq_of_mem_replicate (hanswers ▸ List.mem_map_of_mem he)
    rw [hanswer]
    exact fun h => nomatch h
  have hiff := root_document_iff rfl (by decide) hprogram hnames
  constructor
  · exact (hiff _).2 ⟨hdocuments, polymorphicProgram_admissible, conditionWith_renamed_provable⟩
  · -- The axiom is a source axiom, which is not `Provable`.
    exact fun h => ((hiff _).1 h).2.2 _ List.mem_cons_self

/-- A session that has given a document gives no other, though its reports were accepted, the
    program is `Admissible` and every axiom is `Provable`. -/
theorem root_document_twice :
    (∀ k ∈ reports, k ∈ accepted (history {}
      (polymorphicCalls ++ [.generate (conditionWith (.variable "x@0")) []]))) ∧
      polymorphicProgram.Admissible ∧
      (∀ ax ∈ (conditionWith (.variable "x@0")).axioms,
        ax.kind.Provable polymorphicProgram ["x@0"]) ∧
      ∀ theory,
        ((run { config := {} }
          (polymorphicCalls ++ [.generate (conditionWith (.variable "x@0")) []])).2.call
          (.generate (conditionWith (.variable "x@0")) [])).1 ≠ .ok (some theory) :=
  ⟨by decide, polymorphicProgram_admissible, conditionWith_renamed_provable, fun _ h => nomatch h⟩

end Session

end Warrant
