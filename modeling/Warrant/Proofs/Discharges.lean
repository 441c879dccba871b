import Warrant.Proofs.ConditionNames

/-!
# What the final script cites

The final script applies the verification condition and then discharges its axioms, one group of
lines for each.  The hypotheses of the condition, the definitions of the axioms, the lemmas about
constructors and the groups are made in separate passes over the axioms.  They fit each other, and a
group cites nothing that is not there.

* `Discharged`: what the step for an axiom is, and what has to be there for it.
* `axiomStep_discharged`: every step that `axiomStep` gives is such a step.
* `discharge_matches_condition`: the groups fit the hypotheses of the condition, and the script
  cites only what is there.
-/

namespace Warrant

/-! ## What is there -/

/-- The declarations `decls` have a lemma called `name`. -/
def Proved (decls : List Decl) (name : String) : Prop := ∃ l, .statement l ∈ decls ∧ l.name = name

/-- A lemma that is `Proved` stays so with more declarations. -/
theorem Proved.mono {decls decls' : List Decl} {name : String} (h : Proved decls name)
    (hsub : decls ⊆ decls') : Proved decls' name := by
  obtain ⟨l, hl, hname⟩ := h
  exact ⟨l, hsub hl, hname⟩

/-- The declarations `decls` define `name`. -/
def Defined (decls : List Decl) (name : String) : Prop :=
  ∃ equation, .definition name equation ∈ decls

/-- The script has a line that introduces the fact called `label`. -/
def Introduced (script : Script) (label : String) : Prop :=
  ∃ rest, "have " ++ label ++ ": " ++ rest ∈ script ∨
    "from ParamsLocal have " ++ label ++ ": " ++ rest ∈ script

/-- `t` is a call of `name`, or the name itself. -/
def Term.HeadedBy (name : Ident) (t : Term) : Prop := t = .ident name ∨ ∃ args, t = .call name args

/-- `VcAxiom.hypothesis` is headed by the name of the axiom. -/
private theorem VcAxiom.hypothesis_headedBy (ax : VcAxiom) (σ : Assignment) :
    (ax.hypothesis σ).HeadedBy ax.name := by
  unfold VcAxiom.hypothesis
  split
  · exact .inl rfl
  · exact .inr ⟨_, rfl⟩

/-! ## Lemmas about constructors -/

/-- The lemmas that an axiom contributes are among the `ctorParts` of all. -/
private theorem lemmas_subset_ctorParts {axioms : List VcAxiom} {parts : CtorParts}
    (h : ctorParts axioms = .ok parts) {ax : VcAxiom} (hax : ax ∈ axioms) :
    ∃ own, ax.kind.ctorParts = .ok own ∧ own.lemmas ⊆ parts.lemmas := by
  induction axioms generalizing parts with
  | nil => cases hax
  | cons first others ih =>
    obtain ⟨own, hown, h⟩ := bind_eq_ok_iff.1 h
    obtain ⟨rest, hrest, h⟩ := bind_eq_ok_iff.1 h
    obtain rfl := Except.ok.inj h
    obtain rfl | hax := List.mem_cons.1 hax
    · exact ⟨own, hown, List.subset_append_left ..⟩
    · obtain ⟨own', hown', hsub⟩ := ih hrest hax
      exact ⟨own', hown', List.subset_append_of_subset_right _ hsub⟩

/-- The lemma that an axiom contributes is in `ctorDecls`. -/
private theorem proved_ctorDecls {axioms : List VcAxiom} {decls : List Decl}
    (h : ctorDecls axioms = .ok decls) {ax : VcAxiom} (hax : ax ∈ axioms) {own : CtorParts}
    (hown : ax.kind.ctorParts = .ok own) {l : Lemma} (hl : l ∈ own.lemmas) :
    Proved decls l.name := by
  obtain ⟨parts, hparts, h⟩ := bind_eq_ok_iff.1 h
  obtain rfl := Except.ok.inj h
  obtain ⟨own', hown', hsub⟩ := lemmas_subset_ctorParts hparts hax
  obtain rfl := Except.ok.inj (hown.symm.trans hown')
  exact ⟨l, List.mem_append_right _ (List.mem_map_of_mem (hsub hl)), rfl⟩

/-! ## Steps -/

namespace Assembly

/-- The step that discharges an axiom of a kind, with what has to be there for it: a member lemma
    and the fact `im_<f>` about a function, the fact about a parameter or local, or the lemma
    `ctor_<t>` about a constructor. -/
inductive Discharged (a : Assembly) (decls : List Decl) (script : Script) :
    VcAxiomKind → String → Prop where
  | functionOutput {name member : String} {f : Function} (hf : f ∈ a.program.functions)
      (hname : f.name = name) (hmember : memberLemma a.catalog.chain f.key = .ok member)
      (hfact : Introduced script ("im_" ++ f.name)) :
      Discharged a decls script (.functionOutput name)
        ("apply (fun_output_axiom NonEmptyTypes: NonEmptyTypes)\n" ++
          "using closed_inv1 finterp_extract_2[OF FInterp " ++ member ++ " " ++ ("im_" ++ f.name) ++
          "] apply simp")
  | ofVariable {w label : String} {v : Variable} (hv : a.vcVariable w = .ok v)
      (hlabel : a.stateFacts.get? v.id = some label) (hfact : Introduced script label) :
      Discharged a decls script (.variable w)
        ("apply (simp add: HOL.conjunct2[OF " ++ label ++ "])")
  | ctorBasic {ty : SourceTy} (value : Int) (hlemma : Proved decls ("ctor_" ++ ty.render)) :
      Discharged a decls script (.ctorBasic ty value)
        ("apply (rule " ++ ("ctor_" ++ ty.render) ++ ")")
  | ctorDecl {ctor : TypeCtor} (value : Int) (hlemma : Proved decls ("ctor_" ++ ctor.name)) :
      Discharged a decls script (.ctorDecl ctor value)
        ("apply (rule " ++ ("ctor_" ++ ctor.name) ++ ")")
  | leftInverse (ctor : TypeCtor) (index : Nat) :
      Discharged a decls script (.leftInverse ctor index)
        ("apply (rule " ++ ("left_inv_" ++ toString index ++ "_" ++ toString ctor.arity) ++ ")")
  | cast {ty : SourceTy} {kind : CastKind} {rule : String} (hty : ty.isPrimitive = true)
      (hrule : kind = .boxedOfUnboxed ∧ rule = "inverse_1" ∨
        kind = .unboxedOfBoxed ∧ rule = "inverse_2" ∨ kind = .typeOfBoxed ∧ rule = "type") :
      Discharged a decls script (.cast ty kind)
        ("apply (rule " ++ ty.render ++ "_" ++ rule ++ ")")

variable {a : Assembly} {decls : List Decl} {script : Script}

/-- Every parameter or local that `vcVariable` gives has a label in `stateFacts`. -/
private theorem exists_stateFact {w : String} {v : Variable} (hv : a.vcVariable w = .ok v) :
    ∃ label, a.stateFacts.get? v.id = some label ∧ a.stateFact v = label := by
  obtain ⟨name, _, hlabel⟩ := stateFacts_get? (vcVariable_eq_ok hv).1
  exact ⟨"sc_" ++ name, hlabel, by rw [stateFact, hlabel, Option.getD_some]⟩

/-- `Assembly.function` gives a function of the program with that name. -/
private theorem function_eq_ok {name : String} {f : Function} (h : a.function name = .ok f) :
    f ∈ a.program.functions ∧ f.name = name := by
  unfold function at h
  split at h
  · next f' hf' =>
    obtain rfl := Except.ok.inj h
    exact ⟨List.mem_of_find?_eq_some hf', by simpa using List.find?_some hf'⟩
  · cases h

/-- `axiomStep` cites what is there, if the facts about functions, parameters and locals are and the
    lemmas about constructors. -/
theorem axiomStep_discharged (hctors : ctorDecls a.vc.axioms = .ok decls)
    (hfunctions : ∀ f ∈ a.program.functions, Introduced script ("im_" ++ f.name))
    (hvariables : ∀ v ∈ a.program.paramsAndLocals, Introduced script (a.stateFact v))
    {ax : VcAxiom} (hax : ax ∈ a.vc.axioms) {step : String} (h : a.axiomStep ax = .ok step) :
    Discharged a decls script ax.kind step := by
  have hproved {own : CtorParts} (hown : ax.kind.ctorParts = .ok own) {l : Lemma}
      (hl : l ∈ own.lemmas) : Proved decls l.name :=
    proved_ctorDecls hctors hax hown hl
  unfold axiomStep at h
  cases hkind : ax.kind with
  | source =>
    rw [hkind] at h
    cases h
  | functionOutput name =>
    rw [hkind] at h
    obtain ⟨f, hf, h⟩ := bind_eq_ok_iff.1 h
    obtain ⟨member, hmember, h⟩ := bind_eq_ok_iff.1 h
    obtain rfl := Except.ok.inj h
    obtain ⟨hmem, hname⟩ := function_eq_ok hf
    exact .functionOutput hmem hname hmember (hfunctions f hmem)
  | «variable» w =>
    rw [hkind] at h
    obtain ⟨v, hv, h⟩ := bind_eq_ok_iff.1 h
    obtain rfl := Except.ok.inj h
    obtain ⟨label, hlabel, hfact⟩ := exists_stateFact hv
    rw [hfact]
    exact .ofVariable hv hlabel (hfact ▸ hvariables v (vcVariable_eq_ok hv).1)
  | ctorBasic ty value =>
    rw [hkind] at h hproved
    by_cases hty : ty.isPrimitive = true
    · simp only [if_pos hty] at h
      obtain rfl := Except.ok.inj h
      -- A primitive type has a closed type, and so a lemma about its number.
      obtain rfl | rfl := ty.isPrimitive_iff.1 hty
      · exact .ctorBasic value (hproved rfl List.mem_cons_self)
      · exact .ctorBasic value (hproved rfl List.mem_cons_self)
    · simp only [if_neg hty] at h
      cases h
  | ctorDecl ctor value =>
    rw [hkind] at h hproved
    obtain rfl := Except.ok.inj h
    exact .ctorDecl value (hproved rfl List.mem_cons_self)
  | leftInverse ctor index =>
    rw [hkind] at h
    obtain rfl := Except.ok.inj h
    exact .leftInverse ctor index
  | cast ty kind =>
    rw [hkind] at h
    by_cases hty : ty.isPrimitive = true
    · simp only [if_pos hty] at h
      obtain rfl := Except.ok.inj h
      exact .cast hty (by cases kind <;> simp)
    · simp only [if_neg hty] at h
      cases h

/-! ## The whole proof -/

/-- The fact `im_<f>` about a function is `Introduced` before the condition is applied. -/
private theorem Opening.introduced_function {functions locals axioms correspondences : List Script}
    {states : Script} (h : a.Opening functions locals axioms correspondences states) {f : Function}
    (hf : f ∈ a.program.functions) :
    Introduced (a.opening functions locals axioms correspondences states) ("im_" ++ f.name) := by
  obtain ⟨fact, hmem⟩ := h.interpretation_mem hf
  exact ⟨fact, .inl hmem⟩

/-- The fact about a parameter or local, under its label in `stateFacts`, is `Introduced` before the
    condition is applied. -/
private theorem Opening.introduced_variable {functions locals axioms correspondences : List Script}
    {states : Script} (h : a.Opening functions locals axioms correspondences states) {v : Variable}
    (hv : v ∈ a.program.paramsAndLocals) :
    Introduced (a.opening functions locals axioms correspondences states) (a.stateFact v) := by
  obtain ⟨name, _, hlabel⟩ := stateFacts_get? hv
  obtain ⟨decl, _, hmem⟩ := h.initialFact_mem hv hlabel
  rw [stateFact, hlabel, Option.getD_some]
  exact ⟨_, .inr hmem⟩

/-- The lemma about each function and its counterpart is `Proved` in `functionPhase`. -/
private theorem proved_correspondence {functions : List Function} {phase : FunctionPhase}
    (h : functionPhase functions = .ok phase) {f : Function} (hf : f ∈ functions) :
    Proved phase.decls f.correspondenceName := by
  obtain ⟨l, hl, hf⟩ := exists_mem_of_mapM_eq_ok (functionPhase_eq_ok h).2 hf
  obtain ⟨decl, _, hf⟩ := bind_eq_ok_iff.1 hf
  obtain ⟨args, _, hf⟩ := bind_eq_ok_iff.1 hf
  obtain rfl := Except.ok.inj hf
  exact ⟨_, List.mem_append_right _ (List.mem_map_of_mem hl), rfl⟩

/-- A step stays `Discharged` with more declarations. -/
theorem Discharged.mono {decls' : List Decl} {kind : VcAxiomKind} {step : String}
    (hsub : decls ⊆ decls') (h : Discharged a decls script kind step) :
    Discharged a decls' script kind step := by
  cases h with
  | functionOutput hf hname hmember hfact => exact .functionOutput hf hname hmember hfact
  | ofVariable hv hlabel hfact => exact .ofVariable hv hlabel hfact
  | ctorBasic value hlemma => exact .ctorBasic value (hlemma.mono hsub)
  | ctorDecl value hlemma => exact .ctorDecl value (hlemma.mono hsub)
  | leftInverse ctor index => exact .leftInverse ctor index
  | cast hty hrule => exact .cast hty hrule

/-- The condition is among the `assumptions`, as `VC`. -/
private theorem vcAssumption_mem_assumptions {assumptions : List (String × Term)}
    (h : a.assumptions = .ok assumptions) : ("VC", a.vcAssumption) ∈ assumptions := by
  unfold Assembly.assumptions at h
  split at h
  · obtain rfl := Except.ok.inj h
    exact List.mem_cons_self
  · cases h

/-- The parts of `Assembly.proof`: the declarations before the final lemma, and that lemma. -/
theorem proof_cases (h : a.proof = .ok decls) :
    ∃ phase ctors assumptions script,
      functionPhase a.program.functions = .ok phase ∧ ctorDecls a.vc.axioms = .ok ctors ∧
      ("VC", a.vcAssumption) ∈ assumptions ∧ a.script = .ok script ∧
      decls = (phase.decls ++ a.vc.axioms.map VcAxiom.definition ++ ctors ++
        [.declare "One_nat_def[simp del]"]) ++
        [.statement { name := endToEndName, assumptions, statement := conclusion, script }] := by
  obtain ⟨phase, hphase, h⟩ := bind_eq_ok_iff.1 h
  obtain ⟨ctors, hctors, h⟩ := bind_eq_ok_iff.1 h
  obtain ⟨final, hfinal, h⟩ := bind_eq_ok_iff.1 h
  obtain rfl := Except.ok.inj h
  obtain ⟨assumptions, hassumptions, hfinal⟩ := bind_eq_ok_iff.1 hfinal
  obtain ⟨script, hscript, hfinal⟩ := bind_eq_ok_iff.1 hfinal
  obtain rfl := Except.ok.inj hfinal
  exact ⟨phase, ctors, assumptions, script, hphase, hctors,
    vcAssumption_mem_assumptions hassumptions, hscript, by simp⟩

/-- In every proof the assumption `VC` has one hypothesis for each axiom, headed by its name, and
    after the condition is applied the script has one group of lines for each axiom, in the same
    order, that unfolds the name and takes the step for its kind.

    The names are defined before `end_to_end`, and the lemmas about constructors that the groups
    cite are proved before it.  So are the lemmas `vc_<f>_corres`: the opening cites one for each
    function, in a line that calls a tactic, and calls no other tactic.  The facts that a group
    cites are introduced before the condition is applied.  Every parameter or local that a name of
    the condition means has such a fact. -/
theorem discharge_matches_condition (h : a.proof = .ok decls) :
    ∃ (front : List Decl) (final : Lemma) (hypotheses : List Term)
        (functions locals axioms correspondences groups : List Script) (states opening : Script),
      decls = front ++ [.statement final] ∧ final.name = "end_to_end" ∧
      ("VC", .metaAll a.vcNames.binders
        (hypotheses.foldr Term.metaImp (a.vc.condition.subst a.vcNames.subst))) ∈
          final.assumptions ∧
      List.Forall₂ (fun ax hypothesis => Term.HeadedBy ax.name hypothesis) a.vc.axioms
        hypotheses ∧
      final.script = opening ++ "apply (rule VC)" :: groups.flatten ++ ["done", "qed"] ∧
      "apply (rule VC)" ∉ opening ∧
      List.Forall₂ (fun ax group => Defined front ax.name ∧
        ∃ step, group = ("unfolding " ++ ax.name ++ "_def") :: textLines step ∧
          Discharged a front opening ax.kind step) a.vc.axioms groups ∧
      -- The lines of the opening, and the lemmas about counterparts that they cite.
      opening = a.opening functions locals axioms correspondences states ∧
      List.Forall₂ a.FunctionLines a.program.functions functions ∧
      List.Forall₂ a.VariableLines a.program.paramsAndLocals locals ∧
      List.Forall₂ a.AxiomLines a.program.axioms axioms ∧
      List.Forall₂ a.StateLine a.program.paramsAndLocals states ∧
      List.Forall₂ (fun f lines => Proved front ("vc_" ++ f.name ++ "_corres") ∧
        ∃ member, memberLemma a.catalog.chain f.key = .ok member ∧
          lines =
            ["apply (simp add: " ++ ("im_" ++ f.name) ++ ")", "apply (rule+)",
             "apply (tactic \\<open>vc_fun_corres_tac @\x7bcontext\x7d " ++
              (quotedFact ("vc_" ++ f.name ++ "_corres") ++ " " ++ quotedFact "FInterp" ++ " " ++
                quotedFact member ++ " " ++ quotedFact ("im_" ++ f.name)) ++ " 1\\<close>)"])
        a.program.functions correspondences ∧
      (∀ rest, "apply (tactic " ++ rest ∈ opening → ∃ f ∈ a.program.functions, ∃ member,
        "apply (tactic " ++ rest = tacticLine f member ∧
          Proved front ("vc_" ++ f.name ++ "_corres")) ∧
      ∀ w v, a.vcVariable w = .ok v →
        ∃ label, a.stateFacts.get? v.id = some label ∧ Introduced opening label := by
  obtain ⟨phase, ctors, assumptions, script, hphase, hctors, hvc, hscript, rfl⟩ := proof_cases h
  obtain ⟨functions, locals, axioms, correspondences, states, groups, hopening, hgroups, rfl⟩ :=
    script_cases hscript
  have hproved (f : Function) (hf : f ∈ a.program.functions) :
      Proved (phase.decls ++ a.vc.axioms.map VcAxiom.definition ++ ctors ++
        [.declare "One_nat_def[simp del]"]) ("vc_" ++ f.name ++ "_corres") :=
    (proved_correspondence hphase hf).mono fun decl hdecl => by simp [hdecl]
  refine ⟨_, _, a.vc.axioms.map fun ax => ax.hypothesis a.vcNames.subst, functions, locals, axioms,
    correspondences, groups, states, _, rfl, rfl, ?_, ?_, rfl, hopening.vcLine_not_mem, ?_, rfl,
    hopening.functions, hopening.locals, hopening.axioms, hopening.states, ?_, ?_, ?_⟩
  · rw [List.foldr_map]
    exact hvc
  · rw [List.forall₂_map_right_iff]
    exact List.forall₂_same.2 fun ax _ => ax.hypothesis_headedBy _
  · -- The group for an axiom: its name is defined, and its step cites what is there.
    refine forall₂_of_mapM_eq_ok hgroups fun ax hax group hgroup => ?_
    obtain ⟨step, hstep, hgroup⟩ := bind_eq_ok_iff.1 hgroup
    have hdischarged := axiomStep_discharged hctors (fun f hf => hopening.introduced_function hf)
      (fun v hv => hopening.introduced_variable hv) hax hstep
    have hdefined : ax.definition ∈ phase.decls ++ a.vc.axioms.map VcAxiom.definition :=
      List.mem_append_right _ (List.mem_map_of_mem hax)
    have hsub : ctors ⊆ phase.decls ++ a.vc.axioms.map VcAxiom.definition ++ ctors :=
      List.subset_append_right ..
    exact ⟨⟨_, List.mem_append_left _ (List.mem_append_left _ hdefined)⟩, step,
      (Except.ok.inj hgroup).symm, hdischarged.mono (List.subset_append_of_subset_left _ hsub)⟩
  · refine ((List.forall₂_and_left ..).2 ⟨fun f hf => hf, hopening.correspondences⟩).imp ?_
    intro f lines ⟨hf, hlines⟩
    exact ⟨hproved f hf, hlines⟩
  · intro rest hmem
    obtain ⟨f, hf, member, hline⟩ := hopening.tactic_mem hmem
    exact ⟨f, hf, member, hline, hproved f hf⟩
  · intro w v hv
    obtain ⟨label, hlabel, rfl⟩ := exists_stateFact hv
    exact ⟨_, hlabel, hopening.introduced_variable (vcVariable_eq_ok hv).1⟩

/-- A verification condition with an axiom about a function, a renamed variable, a primitive type
    and a type constructor. -/
def mixedCondition : VcInput where
  condition := .lit (.bool true)
  axioms :=
    [⟨"list_ctor", .lit (.bool true), .ctorDecl ⟨"List", 1⟩ 2⟩,
     ⟨"x_type", .ident "x@0", .variable "x@0"⟩,
     ⟨"length_output", .ident "length", .functionOutput "length"⟩,
     ⟨"int_ctor", .lit (.bool true), .ctorBasic .int 1⟩]

/-- What the proof of `mixedCondition` is assembled from. -/
def mixedAssembly (catalog : Catalog) : Assembly :=
  (Session.run { config := {} } Session.polymorphicCalls).2.assembly catalog
    Session.polymorphicProgram Session.oneBlock mixedCondition

/-- The groups for `mixedCondition` cite the lemma about `List`, and the facts about the parameter
    and the function.  Before them the script calls the tactic with `vc_length_corres`. -/
theorem discharge_matches_condition_mixed :
    ∃ (catalog : Catalog) (decls front : List Decl) (final : Lemma) (before : Script)
        (groups : List Script),
      (mixedAssembly catalog).proof = .ok decls ∧ decls = front ++ [.statement final] ∧
      final.script = before ++ "apply (rule VC)" :: groups.flatten ++ ["done", "qed"] ∧
      groups.map List.head? = ["list_ctor", "x_type", "length_output", "int_ctor"].map
        (fun name => some ("unfolding " ++ name ++ "_def")) ∧
      Defined front "x_type" ∧ Proved front "ctor_List" ∧ Proved front "vc_length_corres" ∧
      (∃ member,
        "apply (tactic \\<open>vc_fun_corres_tac @\x7bcontext\x7d " ++
          (quotedFact "vc_length_corres" ++ " " ++ quotedFact "FInterp" ++ " " ++
            quotedFact member ++ " " ++ quotedFact "im_length") ++ " 1\\<close>)" ∈ before) ∧
      Introduced before "im_length" ∧ Introduced before "sc_x" := by
  obtain ⟨theory, hdocument⟩ : ∃ theory,
      ((Session.run { config := {} } Session.polymorphicCalls).2.call
        (.generate mixedCondition [])).1 = .ok (some theory) := ⟨_, rfl⟩
  obtain ⟨_, p, graph, _, catalog, decls, hp, hgraph, _, _, hproof, _⟩ :=
    (Session.assemble_eq_ok_iff _).1 ((Session.call_generate_eq_ok_iff _).1 hdocument)
  obtain rfl : Session.polymorphicProgram = p := Option.some.inj hp
  obtain rfl : Session.oneBlock = graph := Option.some.inj hgraph
  obtain ⟨front, final, _, _, _, _, _, groups, _, before, hdecls, _, _, _, hscript, _, hgroups,
    hopening, _, _, _, _, hfunctions, _, hvariables⟩ := discharge_matches_condition hproof
  -- There are four axioms, so there are four groups.
  obtain ⟨_, _, ⟨_, _, rfl, hlist⟩, hgroups₁, rfl⟩ := List.forall₂_cons_left_iff.1 hgroups
  obtain ⟨_, _, ⟨hdefined, _, rfl, _⟩, hgroups₂, rfl⟩ := List.forall₂_cons_left_iff.1 hgroups₁
  obtain ⟨_, _, ⟨_, _, rfl, hlength⟩, hgroups₃, rfl⟩ := List.forall₂_cons_left_iff.1 hgroups₂
  obtain ⟨_, _, ⟨_, _, rfl, _⟩, hgroups₄, rfl⟩ := List.forall₂_cons_left_iff.1 hgroups₃
  obtain rfl := List.forall₂_nil_left_iff.1 hgroups₄
  obtain ⟨lines, rest, ⟨hcorrespondence, member, _, hlines⟩, _, hrest⟩ :=
    List.forall₂_cons_left_iff.1 hfunctions
  obtain ⟨label, hlabel, hintroduced⟩ := hvariables "x@0" ⟨"x", .int, 7⟩ rfl
  obtain rfl : "sc_x" = label := Option.some.inj hlabel
  refine ⟨catalog, decls, front, final, before, _, hproof, hdecls, hscript, rfl, hdefined, ?_,
    hcorrespondence, ⟨member, ?_⟩, ?_, hintroduced⟩
  · cases hlist with
    | ctorDecl _ hlemma => exact hlemma
  · -- The last of the three lines about the function calls the tactic.
    rw [hopening, hrest, hlines]
    exact correspondences_subset_opening (List.mem_append_left _
      (List.mem_cons_of_mem _ (List.mem_cons_of_mem _ List.mem_cons_self)))
  · cases hlength with
    | functionOutput _ hname _ hfact =>
      rw [hname] at hfact
      exact hfact

end Assembly

end Warrant
