import Warrant.Assembly.EndToEnd
import Warrant.Proofs.Filing

/-!
# When the final proof can be assembled

Once the declarations of a program are registered, all of the final proof but one part can be made:
the entry of the graph has a label, every declaration can be cited, every type has a term.  What
remains are the axioms of the verification condition, and whether there is a step that shows one can
be told from its kind (`VcAxiomKind.Provable`).  So the proof can be assembled exactly if every
axiom is provable (`Assembly.proof_succeeds_iff`).
-/

namespace Warrant

/-! ## The entry of a graph -/

namespace Graph

/-- A `fresh` block is `finished` once `Graph.visit` is done. -/
theorem mem_finished_visit (g : Graph) (depth : Nat) {id : BlockId} {s : Search}
    (h : id ∈ s.fresh) : id ∈ (g.visit (depth + 1) id s).finished := by
  rw [visit, if_pos h]
  exact List.mem_append_right _ (List.mem_singleton.2 rfl)

/-- Every graph has a block, its entry. -/
theorem size_pos (g : Graph) : 0 < g.size := by
  have hpos : 0 < g.blocks.keys.length := List.length_pos_of_mem g.entry_mem
  rwa [Table.keys, List.length_map] at hpos

/-- `label?` has a label for the entry. -/
private theorem label?_entry_isSome (g : Graph) : (g.label? g.entry).isSome := by
  -- The search may go as deep as there are blocks, and there is at least the entry.
  obtain ⟨depth, hdepth⟩ := Nat.exists_eq_succ_of_ne_zero (Nat.ne_of_gt g.size_pos)
  have hfinished : g.entry ∈ g.searchEntry.finished := by
    rw [searchEntry, hdepth]
    exact g.mem_finished_visit depth g.entry_mem
  rw [label?, List.isSome_idxOf?]
  exact List.mem_append_left _ (List.mem_reverse.2 hfinished)

end Graph

/-! ## Provable axioms -/

/-- There is an `axiomStep` for an axiom of this kind, for a program and the names of its renamed
    variables. -/
def VcAxiomKind.Provable (p : Program) (names : List String) : VcAxiomKind → Prop
  | .source => False
  | .functionOutput name => name ∈ p.functions.map Function.name
  | .variable name => name ∈ p.paramsAndLocals.map Variable.name ∨ name ∈ names
  | .ctorBasic ty _ | .cast ty _ => ty = .bool ∨ ty = .int
  | .ctorDecl _ _ | .leftInverse _ _ => True

/-- `isPrimitive` holds of the types `bool` and `int`. -/
theorem SourceTy.isPrimitive_iff (ty : SourceTy) :
    ty.isPrimitive = true ↔ ty = .bool ∨ ty = .int := by
  cases ty <;> simp [isPrimitive]

/-- A `Provable` axiom has `ctorParts`. -/
theorem VcAxiomKind.Provable.ctorParts {p : Program} {names : List String} {kind : VcAxiomKind}
    (h : kind.Provable p names) : Succeeds kind.ctorParts := by
  cases kind with
  | ctorBasic ty value =>
    obtain rfl | rfl : ty = .bool ∨ ty = .int := h
    · exact ⟨_, rfl⟩
    · exact ⟨_, rfl⟩
  | _ => exact ⟨_, rfl⟩

/-- `ctorDecls` succeeds if all axioms are `Provable`. -/
private theorem ctorDecls_succeeds {p : Program} {names : List String} {axioms : List VcAxiom}
    (h : ∀ ax ∈ axioms, ax.kind.Provable p names) : Succeeds (ctorDecls axioms) := by
  have hparts : Succeeds (ctorParts axioms) := by
    induction axioms with
    | nil => exact succeeds_ok _
    | cons ax axioms ih =>
      obtain ⟨hax, haxioms⟩ := List.forall_mem_cons.1 h
      exact (succeeds_bind_iff_and fun _ _ => succeeds_bind_pure_iff).2 ⟨hax.ctorParts, ih haxioms⟩
  exact succeeds_bind_pure_iff.2 hparts

namespace Assembly

/-- The declarations of the program are registered, and `renamed` has the variables with the given
    names. -/
structure Ready (a : Assembly) (names : List String) : Prop where
  functionTypes : ∀ f ∈ a.program.functions, f.Scoped
  variableTypes : ∀ v ∈ a.program.paramsAndLocals, v.Closed
  cited : ∀ key ∈ a.program.keys, Succeeds (memberLemma a.catalog.chain key)
  renamed : ∀ name, ((a.renamed.get? name).bind a.variableNamed?).isSome ↔ name ∈ names

section

variable {a : Assembly} {names : List String}

/-- The functions of the program can be cited. -/
private theorem Ready.cited_function (h : a.Ready names) {f : Function}
    (hf : f ∈ a.program.functions) : Succeeds (memberLemma a.catalog.chain f.key) := by
  refine h.cited _ ?_
  simp only [Program.keys, List.mem_append]
  exact .inl (.inl (.inl (.inl (List.mem_map_of_mem hf))))

/-- `Assembly.function` succeeds if some function has the name, and then gives one of the
    program. -/
private theorem function_eq_ok_or (a : Assembly) (name : String) :
    (∃ f ∈ a.program.functions, a.function name = .ok f) ∧
      name ∈ a.program.functions.map Function.name ∨
      ¬Succeeds (a.function name) ∧ name ∉ a.program.functions.map Function.name := by
  unfold function
  cases hfind : a.program.functions.find? (·.name = name) with
  | some f =>
    have hname : f.name = name := by simpa using List.find?_some hfind
    have hf := List.mem_of_find?_eq_some hfind
    exact .inl ⟨⟨f, hf, rfl⟩, hname ▸ List.mem_map_of_mem hf⟩
  | none =>
    refine .inr ⟨not_succeeds_error _, fun hname => ?_⟩
    obtain ⟨f, hf, rfl⟩ := List.mem_map.1 hname
    exact absurd (List.find?_eq_none.1 hfind f hf) (by simp)

/-- `variableNamed?` finds a parameter or local exactly if one has the name. -/
theorem variableNamed?_isSome_iff (a : Assembly) (name : String) :
    (a.variableNamed? name).isSome ↔ name ∈ a.program.paramsAndLocals.map Variable.name := by
  simp [variableNamed?, List.find?_isSome]

/-- `vcVariable` succeeds if the name is that of a variable or of a renamed one. -/
private theorem Ready.vcVariable_succeeds_iff (h : a.Ready names) (name : String) :
    Succeeds (a.vcVariable name) ↔
      name ∈ a.program.paramsAndLocals.map Variable.name ∨ name ∈ names := by
  rw [← a.variableNamed?_isSome_iff, ← h.renamed, vcVariable]
  cases a.variableNamed? name with
  | some v => exact iff_of_true (succeeds_ok v) (.inl rfl)
  | none =>
    cases (a.renamed.get? name).bind a.variableNamed? with
    | some v => exact iff_of_true (succeeds_ok v) (.inr rfl)
    | none => exact iff_of_false (not_succeeds_error _) (by simp)

/-- A step for primitive types only succeeds exactly for `isPrimitive` ones. -/
private theorem succeeds_ite_isPrimitive_iff {ty : SourceTy} {step : String} {e : Error} :
    Succeeds (if ty.isPrimitive then .ok step else .error e) ↔ ty = .bool ∨ ty = .int := by
  split
  · next hty => exact iff_of_true (succeeds_ok _) (ty.isPrimitive_iff.1 hty)
  · next hty => exact iff_of_false (not_succeeds_error _) fun hp => hty (ty.isPrimitive_iff.2 hp)

/-- `axiomStep` succeeds exactly if the axiom is `Provable`. -/
private theorem Ready.axiomStep_succeeds_iff (h : a.Ready names) (ax : VcAxiom) :
    Succeeds (a.axiomStep ax) ↔ ax.kind.Provable a.program names := by
  obtain ⟨name, term, kind⟩ := ax
  cases kind with
  | source => exact iff_of_false (not_succeeds_error _) id
  | functionOutput function =>
    rcases a.function_eq_ok_or function with ⟨⟨f, hf, hfunction⟩, hname⟩ | ⟨hfunction, hname⟩
    · -- The function is one of the program, so it can be cited.
      refine iff_of_true (succeeds_bind_iff.2 ⟨f, hfunction, ?_⟩) hname
      exact succeeds_bind_pure_iff.2 (h.cited_function hf)
    · refine iff_of_false (fun hstep => hfunction ?_) hname
      obtain ⟨f, hf, _⟩ := succeeds_bind_iff.1 hstep
      exact ⟨f, hf⟩
  | «variable» name => exact succeeds_bind_pure_iff.trans (h.vcVariable_succeeds_iff name)
  | ctorBasic ty value => exact succeeds_ite_isPrimitive_iff
  | ctorDecl ctor value => exact iff_of_true (succeeds_ok _) trivial
  | leftInverse ctor index => exact iff_of_true (succeeds_ok _) trivial
  | cast ty kind => exact succeeds_ite_isPrimitive_iff

/-- `axiomSteps` succeeds exactly if all axioms are `Provable`. -/
private theorem Ready.axiomSteps_succeeds_iff (h : a.Ready names) :
    Succeeds a.axiomSteps ↔ ∀ ax ∈ a.vc.axioms, ax.kind.Provable a.program names := by
  refine succeeds_bind_pure_iff.trans (succeeds_mapM_iff.trans (forall₂_congr fun ax _ => ?_))
  exact succeeds_bind_pure_iff.trans (h.axiomStep_succeeds_iff ax)

/-! ## The final lemma -/

/-- The `assumptions` of the final lemma can always be stated, as the entry has a label. -/
private theorem assumptions_succeeds (a : Assembly) : Succeeds a.assumptions := by
  obtain ⟨label, hlabel⟩ := Option.isSome_iff_exists.1 a.graph.label?_entry_isSome
  unfold assumptions
  rw [hlabel]
  exact ⟨_, rfl⟩

/-- The lines about the declarations can be written, so `script` succeeds exactly if the axioms can
    be discharged. -/
private theorem Ready.script_succeeds_iff (h : a.Ready names) :
    Succeeds a.script ↔ ∀ ax ∈ a.vc.axioms, ax.kind.Provable a.program names := by
  have hfunctions : Succeeds (a.program.functions.mapM a.functionLines) :=
    succeeds_mapM_iff.2 fun f hf => succeeds_bind_pure_iff.2 (h.cited_function hf)
  have hvariables : Succeeds (a.program.paramsAndLocals.mapM a.variableLines) := by
    refine succeeds_mapM_iff.2 fun v hv =>
      (succeeds_bind_iff_and fun _ _ => succeeds_bind_pure_iff).2 ⟨?_, ?_⟩
    · exact h.cited _ (List.mem_append_right _ (List.mem_map_of_mem hv))
    · exact (Semantics.variableDecl_succeeds_iff v).2 (h.variableTypes v hv)
  have haxioms : Succeeds (a.program.axioms.mapM a.axiomLines) := by
    refine succeeds_mapM_iff.2 fun ax hax => succeeds_bind_pure_iff.2 (h.cited _ ?_)
    simp only [Program.keys, List.mem_append]
    exact .inl (.inl (.inl (.inr (List.mem_map_of_mem hax))))
  have hcorrespondences : Succeeds (a.program.functions.mapM a.correspondenceLines) :=
    succeeds_mapM_iff.2 fun f hf => succeeds_bind_pure_iff.2 (h.cited_function hf)
  -- Only the last group of lines depends on the axioms of the condition.
  unfold script
  rw [succeeds_bind_iff_and fun _ _ => succeeds_bind_iff_and fun _ _ =>
    succeeds_bind_iff_and fun _ _ => succeeds_bind_iff_and fun _ _ =>
    succeeds_bind_pure_iff.trans h.axiomSteps_succeeds_iff]
  exact ⟨fun hs => hs.2.2.2.2, fun hs => ⟨hfunctions, hvariables, haxioms, hcorrespondences, hs⟩⟩

/-- `Assembly.proof` succeeds exactly if the axioms of the verification condition are `Provable`. -/
theorem Ready.proof_succeeds_iff (h : a.Ready names) :
    Succeeds a.proof ↔ ∀ ax ∈ a.vc.axioms, ax.kind.Provable a.program names := by
  have hfinal : Succeeds a.finalLemma ↔ Succeeds a.assumptions ∧ _ :=
    succeeds_bind_iff_and fun _ _ => succeeds_bind_pure_iff.trans h.script_succeeds_iff
  have hproof : Succeeds a.proof ↔
      Succeeds (functionPhase a.program.functions) ∧ Succeeds (ctorDecls a.vc.axioms) ∧
        Succeeds a.finalLemma :=
    succeeds_bind_iff_and fun _ _ => succeeds_bind_iff_and fun _ _ => succeeds_bind_pure_iff
  -- The axioms decide about the final lemma; the declarations about constructors ask for no more.
  rw [hproof, hfinal]
  constructor
  · intro hs
    exact hs.2.2.2
  · intro hs
    exact
      ⟨functionPhase_succeeds h.functionTypes, ctorDecls_succeeds hs, a.assumptions_succeeds, hs⟩

end

end Assembly

end Warrant
