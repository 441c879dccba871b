import Warrant.Assembly.EndToEnd
import Warrant.Proofs.NameSupplies
import Warrant.Proofs.TypeTerms

/-!
# The lines of the final script

`Assembly.script` proves the final lemma.  It introduces facts about functions, about parameters and
locals and about the axioms of the program, relates each of them to what the verification condition
quantifies, applies the condition and discharges its axioms.  This file writes the lines out, with
the lemma or fact that each cites.

* `stateFacts_get?`: every parameter or local has a labelled fact.
* `FunctionLines`, `VariableLines`, `AxiomLines`, `CorrespondenceLines`, `StateLine`: the lines for
  one function, parameter, local or axiom.
* `script_cases`: the script has these lines, in order, and then the groups of `axiomGroup`.
* `Opening.vcLine_not_mem`, `Opening.tactic_mem`: the lines before the groups do not apply the
  condition, and call no tactic but the one for a function.
* `Opening.interpretation_mem`, `Opening.initialFact_mem`: the facts that they introduce.
-/

namespace Warrant

namespace Assembly

variable {a : Assembly} {v : Variable} {script : Script}

/-! ## Facts about the initial state -/

/-- The supply of names for the facts about parameters and locals, which `stateFacts` labels. -/
def factNames (a : Assembly) : NameSupply VarId :=
  (({} : NameSupply VarId).names (a.program.paramsAndLocals.map fun v => (v.id, v.name))).2

/-- `stateFacts` has a label for every parameter or local: `sc_` and the name that `factNames` holds
    for its id. -/
theorem stateFacts_get? (hv : v ∈ a.program.paramsAndLocals) :
    ∃ name, a.factNames.held v.id = some name ∧ a.stateFacts.get? v.id = some ("sc_" ++ name) := by
  have hids : (a.program.paramsAndLocals.map fun v => (v.id, v.name)).map Prod.fst =
      a.program.localIds := by
    rw [List.map_map]
    rfl
  have hmem : v.id ∈ a.program.localIds := List.mem_map_of_mem hv
  obtain ⟨name, hheld⟩ : ∃ name, a.factNames.held v.id = some name :=
    NameSupply.exists_held_names (hids ▸ hmem)
  refine ⟨name, hheld, ?_⟩
  -- Equal ids have equal names, so it does not matter which of them the table keeps.
  have hfact := @Table.get?_ofList VarId String _ _ _ _
    (a.program.localIds.zip ((({} : NameSupply VarId).names
      (a.program.paramsAndLocals.map fun v => (v.id, v.name))).1.map ("sc_" ++ ·)))
    (fun id => (a.factNames.held id).map ("sc_" ++ ·)) (fun e he => by
      rw [List.zip_map_right, ← hids] at he
      obtain ⟨e', he', rfl⟩ := List.mem_map.1 he
      exact congrArg (Option.map ("sc_" ++ ·)) (NameSupply.held_of_mem_zip_names he')) v.id
  rw [List.map_fst_zip (by simp [Program.localIds, NameSupply.length_names]), if_pos hmem,
    hheld] at hfact
  exact hfact

/-- The value of a parameter or local in the initial state: `lookup_var ?Λ n_s id`. -/
def initialValue (v : Variable) : Term :=
  .app (.ident "lookup_var") [.ident "?\\<Lambda>", .ident "n_s", .lit (.nat v.id.toNat)]

/-- The value `t` of a type, boxed again after it was unboxed. -/
def reboxed (t : Term) : SourceTy → Term
  | .int => .app (.ident "IntV") [.app (.ident "convert_val_to_int") [t]]
  | .bool => .app (.ident "BoolV") [.app (.ident "convert_val_to_bool") [t]]
  | .var _ | .ctor .. => t

/-- The fact about a parameter or local of the declared type `decl`: its initial value is there, is
    the boxed one of its type, and has the type. -/
def initialFact (v : Variable) (decl : Term) : Term :=
  .nary .and
    [.nary .eq
      [initialValue v, .app (.ident "Some") [reboxed (.app (.ident "the") [initialValue v]) v.ty]],
     .nary .eq [.app (.ident "type_of_val") [.ident "A", .app (.ident "the") [initialValue v]],
       decl]]

/-! ## Lines for one declaration -/

/-- The lines that introduce `im_<f>`, how a function is interpreted, by its member lemma. -/
def FunctionLines (a : Assembly) (f : Function) (lines : Script) : Prop :=
  ∃ member, memberLemma a.catalog.chain f.key = .ok member ∧
    lines =
      ["let " ++ ("?" ++ f.name) ++ " = " ++
        (Term.app (.ident "opaque_comp")
          [.ident "the", .ident "\\<Gamma>", .lit (.str f.name)]).quoted,
       "have " ++ ("im_" ++ f.name) ++ ": " ++
        (Term.nary .eq
          [.app (.ident "\\<Gamma>") [.lit (.str f.name)],
           .app (.ident "Some") [.ident ("?" ++ f.name)]]).quoted,
       "apply (simp only: opaque_comp_def)",
       "by (rule finterp_member[OF FInterp " ++ member ++ "])"]

/-- The lines that introduce the `initialFact` about a parameter or local, by its member lemma. -/
def VariableLines (a : Assembly) (v : Variable) (lines : Script) : Prop :=
  ∃ label member decl, a.stateFacts.get? v.id = some label ∧
    memberLemma a.catalog.chain v.key = .ok member ∧ Semantics.variableDecl v = .ok decl ∧
    lines =
      ["from ParamsLocal have " ++ label ++ ": " ++ (initialFact v decl).quoted,
       "apply (simp only: state_typ_wf_def)",
       "apply (erule allE, erule allE, erule impE, rule " ++ member ++ ")",
       "apply (subst lookup_var_local[OF " ++ member ++ "])+",
       "by (fastforce dest: tint_intv tbool_boolv)"]

/-- The lines that introduce `ea_<i>`, that an axiom of the program holds, by its member lemma. -/
def AxiomLines (a : Assembly) (ax : SourceAxiom) (lines : Script) : Prop :=
  ∃ member, memberLemma a.catalog.chain ax.key = .ok member ∧
    lines =
      ["have ea_" ++ toString ax.index ++ ": " ++
        (Term.app (.ident "red_expr")
          [.ident "A", .ident "\\<Lambda>", .ident "\\<Gamma>", .ident "\\<Omega>", ax.term,
           .ident "n_s", .app (.ident "BoolV") [.lit (.bool true)]]).quoted,
       "by (rule axioms_sat_mem[OF " ++ member ++ " Axioms])"]

/-- A lemma or fact, quoted for a tactic: `@{thm name}`. -/
def quotedFact (name : String) : String := "@\x7bthm " ++ name ++ "\x7d"

/-- The line that calls the tactic for a function, with the lemma `vc_<f>_corres`, a member lemma
    and the fact `im_<f>`. -/
def tacticLine (f : Function) (member : String) : String :=
  "apply (tactic \\<open>vc_fun_corres_tac @\x7bcontext\x7d " ++
    (quotedFact ("vc_" ++ f.name ++ "_corres") ++ " " ++ quotedFact "FInterp" ++ " " ++
      quotedFact member ++ " " ++ quotedFact ("im_" ++ f.name)) ++
    " 1\\<close>)"

/-- The lines that relate a function to its counterpart in the verification condition, the last of
    them its `tacticLine`. -/
def CorrespondenceLines (a : Assembly) (f : Function) (lines : Script) : Prop :=
  ∃ member, memberLemma a.catalog.chain f.key = .ok member ∧
    lines =
      ["apply (simp add: " ++ ("im_" ++ f.name) ++ ")", "apply (rule+)", tacticLine f member]

/-- The line that relates a parameter or local to its quantified identifier, by its label in
    `stateFacts`. -/
def StateLine (a : Assembly) (v : Variable) (line : String) : Prop :=
  ∃ label, a.stateFacts.get? v.id = some label ∧
    line = if v.ty.isPrimitive then "apply (rule HOL.conjunct1[OF " ++ label ++ "])"
      else "apply (rule HOL.conjunct1[OF " ++ label ++ "], rule HOL.conjunct2[OF " ++ label ++ "])"

/-- `functionLines` writes the lines of `FunctionLines`. -/
private theorem functionLines_eq_ok {f : Function} {lines : Script}
    (h : a.functionLines f = .ok lines) : a.FunctionLines f lines := by
  obtain ⟨member, hmember, h⟩ := bind_eq_ok_iff.1 h
  obtain rfl := Except.ok.inj h
  exact ⟨member, hmember, rfl⟩

/-- The fact that `variableLines` writes is `initialFact`. -/
private theorem initialFact_eq (v : Variable) (decl : Term) :
    Term.and
      (.eq (initialValue v) (Semantics.normalizedLookup (initialValue v) v.ty))
      (.eq (Semantics.typeOfVal (.ident "A") (Vocabulary.the (initialValue v))) decl) =
      initialFact v decl := by
  unfold initialFact Semantics.normalizedLookup
  -- The term depends on the type only in how the value is boxed.
  cases v.ty <;> rfl

/-- `variableLines` writes the lines of `VariableLines`. -/
private theorem variableLines_eq_ok (hv : v ∈ a.program.paramsAndLocals) {lines : Script}
    (h : a.variableLines v = .ok lines) : a.VariableLines v lines := by
  obtain ⟨member, hmember, h⟩ := bind_eq_ok_iff.1 h
  obtain ⟨decl, hdecl, h⟩ := bind_eq_ok_iff.1 h
  obtain rfl := Except.ok.inj h
  obtain ⟨name, _, hlabel⟩ := stateFacts_get? hv
  have hfact : a.stateFact v = "sc_" ++ name := by rw [stateFact, hlabel, Option.getD_some]
  refine ⟨"sc_" ++ name, member, decl, hlabel, hmember, hdecl, ?_⟩
  rw [hfact]
  refine congrArg (· :: _) ?_
  exact congrArg (("from ParamsLocal have " ++ ("sc_" ++ name) ++ ": ") ++ Term.quoted ·)
    (initialFact_eq v decl)

/-- `axiomLines` writes the lines of `AxiomLines`. -/
private theorem axiomLines_eq_ok {ax : SourceAxiom} {lines : Script}
    (h : a.axiomLines ax = .ok lines) : a.AxiomLines ax lines := by
  obtain ⟨member, hmember, h⟩ := bind_eq_ok_iff.1 h
  obtain rfl := Except.ok.inj h
  exact ⟨member, hmember, rfl⟩

/-- `correspondenceLines` writes the lines of `CorrespondenceLines`. -/
private theorem correspondenceLines_eq_ok {f : Function} {lines : Script}
    (h : a.correspondenceLines f = .ok lines) : a.CorrespondenceLines f lines := by
  obtain ⟨member, hmember, h⟩ := bind_eq_ok_iff.1 h
  obtain rfl := Except.ok.inj h
  refine ⟨member, hmember, ?_⟩
  rfl

/-- `stateLine` writes the line of `StateLine`. -/
private theorem stateLine_stateLine (hv : v ∈ a.program.paramsAndLocals) :
    a.StateLine v (a.stateLine v) := by
  obtain ⟨name, _, hlabel⟩ := stateFacts_get? hv
  refine ⟨"sc_" ++ name, hlabel, ?_⟩
  rw [stateLine, stateFact, hlabel, Option.getD_some]

/-! ## The script -/

/-- The line that applies the verification condition `VC`. -/
def vcLine : String := "apply (rule VC)"

/-- The lines of `script` that lead up to `vcLine`, given those about functions, parameters and
    locals, axioms of the program, counterparts and the initial state. -/
def opening (a : Assembly) (functions locals axioms correspondences : List Script)
    (states : Script) : Script :=
  ["proof -",
   "let ?\\<Lambda> = " ++
    (Term.tuple
      [.list [],
       .nary .append
        [.ident a.catalog.scope.params, .ident a.catalog.scope.locals]]).quoted] ++
    functions.flatten ++ locals.flatten ++ axioms.flatten ++
    ["show " ++ (Term.nary .neq [.ident "s'", .ident "Failure"]).quoted,
     "apply (rule " ++ a.locale ++ ".method_verifies[OF _ Red])",
     "apply (simp only: " ++ a.locale ++ "_def)",
     "apply (intro conjI)"] ++
    correspondences.flatten ++ states ++ ["apply (simp add: Closed)"]

/-- The lines of `opening` are those for the declarations of the program, in order. -/
structure Opening (a : Assembly) (functions locals axioms correspondences : List Script)
    (states : Script) : Prop where
  functions : List.Forall₂ a.FunctionLines a.program.functions functions
  locals : List.Forall₂ a.VariableLines a.program.paramsAndLocals locals
  axioms : List.Forall₂ a.AxiomLines a.program.axioms axioms
  correspondences : List.Forall₂ a.CorrespondenceLines a.program.functions correspondences
  states : List.Forall₂ a.StateLine a.program.paramsAndLocals states

/-- `Assembly.script` opens, applies the condition and discharges the axioms in order. -/
theorem script_cases (h : a.script = .ok script) :
    ∃ functions locals axioms correspondences states groups,
      a.Opening functions locals axioms correspondences states ∧
      a.vc.axioms.mapM a.axiomGroup = .ok groups ∧
      script = a.opening functions locals axioms correspondences states ++
        vcLine :: groups.flatten ++ ["done", "qed"] := by
  obtain ⟨functions, hfunctions, h⟩ := bind_eq_ok_iff.1 h
  obtain ⟨locals, hlocals, h⟩ := bind_eq_ok_iff.1 h
  obtain ⟨axioms, haxioms, h⟩ := bind_eq_ok_iff.1 h
  obtain ⟨correspondences, hcorrespondences, h⟩ := bind_eq_ok_iff.1 h
  obtain ⟨discharge, hdischarge, h⟩ := bind_eq_ok_iff.1 h
  obtain ⟨groups, hgroups, hdischarge⟩ := bind_eq_ok_iff.1 hdischarge
  obtain rfl := Except.ok.inj hdischarge
  obtain rfl := Except.ok.inj h
  -- The five groups of facts, each for the declarations that it is about.
  refine ⟨functions, locals, axioms, correspondences, a.program.paramsAndLocals.map a.stateLine,
    groups, ?_, hgroups, ?_⟩
  · exact {
      functions := forall₂_of_mapM_eq_ok hfunctions fun f _ lines hlines =>
        functionLines_eq_ok hlines
      locals := forall₂_of_mapM_eq_ok hlocals fun v hv lines hlines =>
        variableLines_eq_ok hv hlines
      axioms := forall₂_of_mapM_eq_ok haxioms fun ax _ lines hlines => axiomLines_eq_ok hlines
      correspondences := forall₂_of_mapM_eq_ok hcorrespondences fun f _ lines hlines =>
        correspondenceLines_eq_ok hlines
      states := List.forall₂_map_right_iff.2
        (List.forall₂_same.2 fun v hv => stateLine_stateLine hv) }
  · simp only [opening, vcLine, List.append_assoc, List.cons_append, List.nil_append]
    rfl

/-! ## What the opening does not do -/

/-- A line that applies the condition, `vcLine`, or calls a tactic. -/
inductive Decisive : String → Prop where
  | condition : Decisive vcLine
  | tactic (rest : String) : Decisive ("apply (tactic " ++ rest)

variable {line : String}

/-- Whether a line occurs can be seen from its `String.toList`. -/
private theorem not_mem_of_toList {lines : Script} (h : line.toList ∉ lines.map String.toList) :
    line ∉ lines :=
  fun hmem => h (List.mem_map_of_mem hmem)

/-- `FunctionLines` have no `Decisive` line. -/
private theorem Decisive.not_mem_functionLines (hline : Decisive line) {f : Function}
    {lines : Script} (h : a.FunctionLines f lines) : line ∉ lines := by
  obtain ⟨member, _, rfl⟩ := h
  cases hline <;> exact not_mem_of_toList (by simp [vcLine])

/-- `VariableLines` have no `Decisive` line. -/
private theorem Decisive.not_mem_variableLines (hline : Decisive line) {lines : Script}
    (h : a.VariableLines v lines) : line ∉ lines := by
  obtain ⟨label, member, decl, _, _, _, rfl⟩ := h
  cases hline <;> exact not_mem_of_toList (by simp [vcLine])

/-- `AxiomLines` have no `Decisive` line. -/
private theorem Decisive.not_mem_axiomLines (hline : Decisive line) {ax : SourceAxiom}
    {lines : Script} (h : a.AxiomLines ax lines) : line ∉ lines := by
  obtain ⟨member, _, rfl⟩ := h
  cases hline <;> exact not_mem_of_toList (by simp [vcLine])

/-- A `StateLine` is not `Decisive`. -/
private theorem Decisive.not_stateLine (hline : Decisive line) : ¬a.StateLine v line := by
  rintro ⟨label, _, h⟩
  have hchars := congrArg String.toList h
  cases hline <;> split at hchars <;> simp [vcLine] at hchars

/-- Of the lines about a counterpart, only the last is `Decisive`. -/
private theorem Decisive.mem_correspondenceLines (hline : Decisive line) {f : Function}
    {lines : Script} (h : a.CorrespondenceLines f lines) (hmem : line ∈ lines) :
    ∃ member, line = tacticLine f member := by
  obtain ⟨member, _, rfl⟩ := h
  have hothers : line ∉ ["apply (simp add: " ++ ("im_" ++ f.name) ++ ")", "apply (rule+)"] := by
    cases hline <;> exact not_mem_of_toList (by simp [vcLine])
  simp only [List.mem_cons, List.not_mem_nil, or_false, not_or] at hmem hothers
  obtain h | h | h := hmem
  · exact absurd h hothers.1
  · exact absurd h hothers.2
  · exact ⟨member, h⟩

/-- What is written for each of `items` has a line only if what is written for some item does. -/
private theorem not_mem_flatten {α : Type} {P : α → Script → Prop} {items : List α}
    {written : List Script} (h : List.Forall₂ P items written)
    (hlines : ∀ {item lines}, P item lines → line ∉ lines) : line ∉ written.flatten := by
  intro hmem
  obtain ⟨lines, hwritten, hmem⟩ := List.mem_flatten.1 hmem
  obtain ⟨item, _, hitem⟩ := exists_left_of_forall₂ h hwritten
  exact hlines hitem hmem

/-- The lines of the opening that are the same in every script are not `Decisive`. -/
private theorem Decisive.not_mem_fixed (hline : Decisive line)
    (locale context conclusion : String) :
    line ∉ ["proof -", "let ?\\<Lambda> = " ++ context] ∧
      line ∉ ["show " ++ conclusion, "apply (rule " ++ locale ++ ".method_verifies[OF _ Red])",
        "apply (simp only: " ++ locale ++ "_def)", "apply (intro conjI)"] ∧
      line ∉ ["apply (simp add: Closed)"] := by
  -- Two lines apply a rule, but the one about the locale is longer than `vcLine`.
  have hrule : vcLine.toList ≠ ("apply (rule " ++ locale ++
      ".method_verifies[OF _ Red])").toList := by
    intro h
    have hlen := congrArg List.length h
    simp [vcLine] at hlen
  cases hline with
  | condition =>
    refine ⟨not_mem_of_toList (by simp [vcLine]), not_mem_of_toList ?_, by decide⟩
    simp only [List.map_cons, List.map_nil, List.mem_cons, List.not_mem_nil, or_false, not_or]
    exact ⟨by simp [vcLine], hrule, by simp [vcLine], by decide⟩
  | tactic rest =>
    exact ⟨not_mem_of_toList (by simp), not_mem_of_toList (by simp), not_mem_of_toList (by simp)⟩

section

variable {functions locals axioms correspondences : List Script} {states : Script}

/-- A `Decisive` line of the opening calls the tactic for a function. -/
private theorem Opening.decisive_mem (h : a.Opening functions locals axioms correspondences states)
    (hline : Decisive line)
    (hmem : line ∈ a.opening functions locals axioms correspondences states) :
    ∃ f ∈ a.program.functions, ∃ member, line = tacticLine f member := by
  have hfunctions := not_mem_flatten h.functions hline.not_mem_functionLines
  have hlocals := not_mem_flatten h.locals hline.not_mem_variableLines
  have haxioms := not_mem_flatten h.axioms hline.not_mem_axiomLines
  have hstates : line ∉ states := fun hstate =>
    (exists_left_of_forall₂ h.states hstate).elim fun v hv => hline.not_stateLine hv.2
  obtain ⟨hfirst, hshow, hlast⟩ := hline.not_mem_fixed a.locale _ _
  simp only [opening, List.mem_append] at hmem
  obtain (((((((hmem | hmem) | hmem) | hmem) | hmem) | hmem) | hmem) | hmem) := hmem
  · exact absurd hmem hfirst
  · exact absurd hmem hfunctions
  · exact absurd hmem hlocals
  · exact absurd hmem haxioms
  · exact absurd hmem hshow
  · -- Only the lines about counterparts can have the line.
    obtain ⟨lines, hwritten, hmem⟩ := List.mem_flatten.1 hmem
    obtain ⟨f, hf, hlines⟩ := exists_left_of_forall₂ h.correspondences hwritten
    exact ⟨f, hf, hline.mem_correspondenceLines hlines hmem⟩
  · exact absurd hmem hstates
  · exact absurd hmem hlast

/-- No line of the `opening` is `vcLine`. -/
theorem Opening.vcLine_not_mem (h : a.Opening functions locals axioms correspondences states) :
    vcLine ∉ a.opening functions locals axioms correspondences states := by
  intro hmem
  obtain ⟨f, _, member, hline⟩ := h.decisive_mem .condition hmem
  delta tacticLine at hline
  -- The lines differ in the word after `apply`.
  have hchars := congrArg String.toList hline
  simp [vcLine] at hchars

/-- A line of the opening that calls a tactic is the `tacticLine` of a function. -/
theorem Opening.tactic_mem (h : a.Opening functions locals axioms correspondences states)
    {rest : String}
    (hmem : "apply (tactic " ++ rest ∈ a.opening functions locals axioms correspondences states) :
    ∃ f ∈ a.program.functions, ∃ member, "apply (tactic " ++ rest = tacticLine f member :=
  h.decisive_mem (.tactic rest) hmem

/-! ## What the opening introduces -/

/-- The lines about functions are in the `opening`. -/
private theorem functions_subset_opening :
    functions.flatten ⊆ a.opening functions locals axioms correspondences states := by
  intro line hline
  simp [opening, hline]

/-- The lines about counterparts are in the `opening`. -/
theorem correspondences_subset_opening :
    correspondences.flatten ⊆ a.opening functions locals axioms correspondences states := by
  intro line hline
  simp [opening, hline]

/-- The lines about parameters and locals are in the `opening`. -/
private theorem locals_subset_opening :
    locals.flatten ⊆ a.opening functions locals axioms correspondences states := by
  intro line hline
  simp [opening, hline]

/-- The `opening` introduces the fact `im_<f>` about every function. -/
theorem Opening.interpretation_mem (h : a.Opening functions locals axioms correspondences states)
    {f : Function} (hf : f ∈ a.program.functions) :
    ∃ fact, "have " ++ ("im_" ++ f.name) ++ ": " ++ fact ∈
      a.opening functions locals axioms correspondences states := by
  obtain ⟨lines, hlines, _, _, rfl⟩ := exists_right_of_forall₂ h.functions hf
  -- The second of the lines about the function introduces the fact.
  have hmem := List.mem_flatten_of_mem hlines (List.mem_cons_of_mem _ List.mem_cons_self)
  exact ⟨_, functions_subset_opening hmem⟩

/-- The `opening` introduces the `initialFact` about every parameter or local, under its label. -/
theorem Opening.initialFact_mem (h : a.Opening functions locals axioms correspondences states)
    (hv : v ∈ a.program.paramsAndLocals) {label : String}
    (hlabel : a.stateFacts.get? v.id = some label) :
    ∃ decl, Semantics.variableDecl v = .ok decl ∧
      "from ParamsLocal have " ++ label ++ ": " ++ (initialFact v decl).quoted ∈
        a.opening functions locals axioms correspondences states := by
  obtain ⟨lines, hlines, label', member, decl, hlabel', _, hdecl, rfl⟩ :=
    exists_right_of_forall₂ h.locals hv
  obtain rfl : label' = label := Option.some.inj (hlabel'.symm.trans hlabel)
  have hmem := List.mem_flatten_of_mem hlines List.mem_cons_self
  exact ⟨decl, hdecl, locals_subset_opening hmem⟩

end

end Assembly

end Warrant
