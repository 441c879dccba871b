import Mathlib.Data.List.Nodup
import Mathlib.Data.List.Pairwise
import Warrant.Proofs.BlockOrder
import Warrant.Proofs.Discharges
import Warrant.Proofs.LemmaNames
import Warrant.Proofs.Origins
import Warrant.Proofs.RootSession

/-!
# Names of a document

A document has the lemmas of its scope, definitions for the hints of blocks, for each function its
counterpart with a lemma, the definitions of axioms, what numbers the type constructors, and the
final lemma.  The names of most of these are texts of the calling tool with a fixed lead or end, and
nothing keeps them apart: `nodup_names_iff` lists every way in which two names can meet.

* `NameParts`: what the names of a document are made from; `Clear`: no two of them meet.
* `nodup_labels_iff`: definitions for hints meet exactly if blocks with hints share a label.
* `document_names_unique_iff`: when the names of a document are unique.
-/

namespace Warrant

/-! ## What names are made from -/

/-- What the names of a document (`Theory.names`) are made from. -/
structure NameParts where
  /-- The names of the lemmas of the scope, `Scope.lemmas`. -/
  scope : List String
  /-- The labels of the blocks with hints, `BlockHints.labels`. -/
  labels : List String
  functions : List String
  axioms : List String
  /-- The type constructors that have a number, `ctorNames`. -/
  ctors : List String

namespace NameParts

variable (n : NameParts)

/-- The names of the definitions for hints, from `labels`. -/
def hints : List String := n.labels.map BlockHints.definitionName

/-- The names of the counterparts of functions, `Function.vcName`. -/
def counterparts : List String := n.functions.map ("vc_fun_" ++ ·)

/-- The names of the lemmas about functions and their counterparts,
    `Function.correspondenceName`. -/
def correspondences : List String := n.functions.map fun f => "vc_" ++ f ++ "_corres"

/-- The names of the table of type constructors and of the lemmas about their numbers, from
    `ctors`. -/
def numbers : List String := ("table" :: n.ctors).map ctorLemmaName

/-- The names of `ctorDecls` and of the final lemma that do not depend on the program. -/
def fixed : List String := [ctorName, endToEndName]

/-- All names of a document but those of `axioms`. -/
def derived : List String :=
  n.scope ++ n.hints ++ n.counterparts ++ n.correspondences ++ n.numbers ++ fixed

/-- The names of a document, in the order of its declarations. -/
def names : List String :=
  n.scope ++ n.hints ++ n.counterparts ++ n.correspondences ++ n.axioms ++
    [ctorTableName, ctorName] ++ n.ctors.map ctorLemmaName ++ [endToEndName]

/-- No two of the `names` of the document meet. -/
structure Clear : Prop where
  functions : n.functions.Nodup
  /-- No counterpart is named as the lemma about a counterpart. -/
  correspondences : ∀ f ∈ n.functions, ∀ f' ∈ n.functions, "fun_" ++ f ≠ f' ++ "_corres"
  /-- No type constructor has two numbers, and none is called as the table `ctorTableName`. -/
  ctors : ("table" :: n.ctors).Nodup
  labels : n.labels.Nodup
  hints : ∀ label ∈ n.labels, label ++ "_hints" ∉ n.scope ++ n.counterparts ++ n.numbers
  axioms : n.axioms.Nodup
  /-- No axiom is called as something else, one of the `derived` names. -/
  axiomNames : ∀ ax ∈ n.axioms, ax ∉ n.derived

instance : Decidable n.Clear :=
  decidable_of_iff
    (n.functions.Nodup ∧ (∀ f ∈ n.functions, ∀ f' ∈ n.functions, "fun_" ++ f ≠ f' ++ "_corres") ∧
      ("table" :: n.ctors).Nodup ∧ n.labels.Nodup ∧
      (∀ label ∈ n.labels, label ++ "_hints" ∉ n.scope ++ n.counterparts ++ n.numbers) ∧
      n.axioms.Nodup ∧ ∀ ax ∈ n.axioms, ax ∉ n.derived)
    ⟨fun h => ⟨h.1, h.2.1, h.2.2.1, h.2.2.2.1, h.2.2.2.2.1, h.2.2.2.2.2.1, h.2.2.2.2.2.2⟩,
     fun h => ⟨h.functions, h.correspondences, h.ctors, h.labels, h.hints, h.axioms, h.axiomNames⟩⟩

/-! ## Names that can meet -/

/-- Up to their order the `names` are the `derived` ones and those of `axioms`. -/
private theorem names_perm : n.names.Perm (n.derived ++ n.axioms) := by
  have hnumbers : n.numbers = ctorTableName :: n.ctors.map ctorLemmaName := rfl
  rw [List.perm_iff_count]
  intro x
  simp only [names, derived, fixed, hnumbers, List.count_append, List.count_cons, List.count_nil]
  omega

variable {n}

/-- Definitions for hints have different names exactly if the `labels` differ. -/
private theorem nodup_hints_iff : n.hints.Nodup ↔ n.labels.Nodup :=
  List.nodup_map_iff fun _ _ h => (String.append_left_inj _).1 h

/-- Counterparts have different names exactly if the `functions` do. -/
private theorem nodup_counterparts_iff : n.counterparts.Nodup ↔ n.functions.Nodup :=
  List.nodup_map_iff fun _ _ h => (String.append_right_inj _).1 h

/-- The lemmas about counterparts have different names exactly if the `functions` do. -/
private theorem nodup_correspondences_iff : n.correspondences.Nodup ↔ n.functions.Nodup :=
  List.nodup_map_iff fun _ _ h => (String.append_right_inj _).1 ((String.append_left_inj _).1 h)

/-- The names `numbers` differ exactly if the `ctors` differ, from each other and from the table. -/
private theorem nodup_numbers_iff : n.numbers.Nodup ↔ ("table" :: n.ctors).Nodup :=
  List.nodup_map_iff fun _ _ h => (String.append_right_inj _).1 h

/-- When a counterpart is named as the lemma about another: the common lead does not count. -/
private theorem counterpart_eq_iff (f f' : String) :
    "vc_fun_" ++ f = "vc_" ++ f' ++ "_corres" ↔ "fun_" ++ f = f' ++ "_corres" := by
  have hlead : "vc_fun_" ++ f = "vc_" ++ ("fun_" ++ f) := by
    rw [← String.append_assoc]
    rfl
  rw [hlead, String.append_assoc]
  exact String.append_right_inj _

/-! ## Names that cannot meet -/

/-- Names that are `Led` by texts that are `Apart` do not meet. -/
private theorem disjoint_of_led {xs ys leads leads' : List String} (hxs : ∀ x ∈ xs, Led leads x)
    (hys : ∀ y ∈ ys, Led leads' y) (hapart : ∀ lead ∈ leads, ∀ lead' ∈ leads', Apart lead lead') :
    xs.Disjoint ys :=
  fun x hx hy => (hxs x hx).ne (hys x hy) hapart rfl

/-- The `counterparts` start with `vc_`. -/
private theorem led_counterparts : ∀ x ∈ n.counterparts, Led ["vc_"] x := by
  intro x hx
  obtain ⟨f, _, rfl⟩ := List.mem_map.1 hx
  refine ⟨"vc_", List.mem_singleton_self _, "fun_" ++ f, ?_⟩
  rw [← String.append_assoc]
  rfl

/-- The `correspondences` start with `vc_`, too. -/
private theorem led_correspondences : ∀ x ∈ n.correspondences, Led ["vc_"] x := by
  intro x hx
  obtain ⟨f, _, rfl⟩ := List.mem_map.1 hx
  exact ⟨"vc_", List.mem_singleton_self _, f ++ "_corres", String.append_assoc ..⟩

/-- The `numbers` start with `ctor_`. -/
private theorem led_numbers : ∀ x ∈ n.numbers, Led ["ctor_"] x := by
  intro x hx
  obtain ⟨c, _, rfl⟩ := List.mem_map.1 hx
  exact ⟨"ctor_", List.mem_singleton_self _, c, rfl⟩

/-- The `fixed` names are led by themselves. -/
private theorem led_fixed : ∀ x ∈ fixed, Led ["ctor", "end_to_end"] x := fun _ hx => led_of_mem hx

/-- `hints` and `correspondences` do not meet, as their ends differ. -/
private theorem disjoint_hints_correspondences : n.hints.Disjoint n.correspondences := by
  intro x hx hx'
  obtain ⟨label, _, rfl⟩ := List.mem_map.1 hx
  obtain ⟨f, _, heq⟩ := List.mem_map.1 hx'
  exact (by decide : ApartAtEnd "_hints" "_corres").append_ne label ("vc_" ++ f) heq.symm

/-- `hints` do not meet the `fixed` names, none of which ends as they do. -/
private theorem disjoint_hints_fixed : n.hints.Disjoint fixed := by
  intro x hx hfixed
  obtain ⟨label, _, rfl⟩ := List.mem_map.1 hx
  have hend : ∀ y ∈ fixed, ApartAtEnd "_hints" y := by decide
  exact (hend _ hfixed).append_ne label "" String.empty_append.symm

/-- `numbers` do not meet the `fixed` names. -/
private theorem disjoint_numbers_fixed : n.numbers.Disjoint fixed := by
  intro x hx hfixed
  obtain ⟨c, _, rfl⟩ := List.mem_map.1 hx
  simp only [fixed, List.mem_cons, List.not_mem_nil, or_false] at hfixed
  rcases hfixed with h | h
  · -- `ctor` is a prefix of `ctor_`, so the leads are not apart; the lengths differ.
    have hchars := congrArg String.toList h
    simp [ctorLemmaName, ctorName] at hchars
  · exact (by decide : Apart "ctor_" "end_to_end").append_ne_self c h

/-! ## When names are unique -/

/-- When `counterparts` and `correspondences` do not meet, in terms of `functions`. -/
private theorem disjoint_counterparts_correspondences_iff :
    n.counterparts.Disjoint n.correspondences ↔
    ∀ f ∈ n.functions, ∀ f' ∈ n.functions, "fun_" ++ f ≠ f' ++ "_corres" := by
  constructor
  · intro h f hf f' hf' heq
    exact h (List.mem_map_of_mem hf)
      (List.mem_map.2 ⟨f', hf', ((counterpart_eq_iff f f').2 heq).symm⟩)
  · intro h x hx hx'
    obtain ⟨f, hf, rfl⟩ := List.mem_map.1 hx
    obtain ⟨f', hf', heq⟩ := List.mem_map.1 hx'
    exact h f hf f' hf' ((counterpart_eq_iff f f').1 heq.symm)

/-- When `hints` do not meet other names, in terms of `labels`. -/
private theorem hints_disjoint_iff {names : List String} :
    n.hints.Disjoint names ↔ ∀ label ∈ n.labels, label ++ "_hints" ∉ names := by
  constructor
  · exact fun h label hlabel => h (List.mem_map_of_mem hlabel)
  · intro h x hx
    obtain ⟨label, hlabel, rfl⟩ := List.mem_map.1 hx
    exact h label hlabel

section

variable (hscope : n.scope.Nodup)
    (hled : ∀ x ∈ n.scope, Led (helperNames ++ ["mconst_", "mfun_", "m_", "ma_", "l_"]) x)

include hscope hled in
/-- When the `derived` names, all but those of axioms, are unique. -/
private theorem nodup_derived_iff : n.derived.Nodup ↔
    n.functions.Nodup ∧ (∀ f ∈ n.functions, ∀ f' ∈ n.functions, "fun_" ++ f ≠ f' ++ "_corres") ∧
    ("table" :: n.ctors).Nodup ∧ n.labels.Nodup ∧
    ∀ label ∈ n.labels, label ++ "_hints" ∉ n.scope ++ n.counterparts ++ n.numbers := by
  have hflat : n.derived =
      [n.scope, n.hints, n.counterparts, n.correspondences, n.numbers, fixed].flatten := by
    simp [derived]
  -- Leads and ends keep most groups apart, whatever the calling tool's texts are.
  have hscopeCounterparts := disjoint_of_led hled n.led_counterparts (by decide)
  have hscopeCorrespondences := disjoint_of_led hled n.led_correspondences (by decide)
  have hscopeNumbers := disjoint_of_led hled n.led_numbers (by decide)
  have hscopeFixed := disjoint_of_led hled led_fixed (by decide)
  have hcounterpartsNumbers := disjoint_of_led n.led_counterparts n.led_numbers (by decide)
  have hcounterpartsFixed := disjoint_of_led n.led_counterparts led_fixed (by decide)
  have hcorrespondencesNumbers := disjoint_of_led n.led_correspondences n.led_numbers (by decide)
  have hcorrespondencesFixed := disjoint_of_led n.led_correspondences led_fixed (by decide)
  have hfixed : fixed.Nodup := by decide
  rw [← hints_disjoint_iff, List.disjoint_append_right, List.disjoint_append_right,
    ← disjoint_counterparts_correspondences_iff, hflat, List.nodup_flatten]
  simp only [List.forall_mem_cons, List.pairwise_cons, List.not_mem_nil, false_implies,
    implies_true, and_true, List.Pairwise.nil, nodup_hints_iff, nodup_counterparts_iff,
    nodup_correspondences_iff, nodup_numbers_iff, hscope, hfixed, hscopeCounterparts,
    hscopeCorrespondences, hscopeNumbers, hscopeFixed, hcounterpartsNumbers, hcounterpartsFixed,
    hcorrespondencesNumbers, hcorrespondencesFixed, disjoint_hints_correspondences,
    disjoint_hints_fixed, disjoint_numbers_fixed, true_and]
  -- Left are repetitions within a group, and hints and functions, which can meet other groups.
  have hcomm : n.scope.Disjoint n.hints ↔ n.hints.Disjoint n.scope := List.disjoint_comm
  tauto

include hscope hled in
/-- The `names` of a document are unique exactly if no two of them meet in one of the ways that
    `Clear` lists. -/
theorem nodup_names_iff : n.names.Nodup ↔ n.Clear := by
  -- Axioms may have any name, so they are kept apart from all other names at once.
  rw [n.names_perm.nodup_iff, List.nodup_append', nodup_derived_iff hscope hled]
  constructor
  · intro ⟨⟨hfunctions, hcorrespondences, hctors, hlabels, hhints⟩, haxioms, hdisjoint⟩
    exact ⟨hfunctions, hcorrespondences, hctors, hlabels, hhints, haxioms,
      fun ax hax hmem => hdisjoint hmem hax⟩
  · intro h
    exact ⟨⟨h.functions, h.correspondences, h.ctors, h.labels, h.hints⟩, h.axioms,
      fun x hx hax => h.axiomNames x hax hx⟩

end

end NameParts

/-! ## Labels of blocks with hints -/

namespace BlockHints

variable (t : BlockHints) (g : Graph)

/-- The label of the block `id` of `g`, if it has hints in `t`. -/
def label? (id : BlockId) : Option String := (t.get? id).bind fun _ => (g.block? id).map Block.label

/-- The labels of the blocks that have hints, in the order of `definitions`. -/
def labels : List String := g.backwards.filterMap (t.label? g)

/-- The names of `definitions` are made from `labels`. -/
private theorem names_definitions :
    (t.definitions g).filterMap Decl.name? = (t.labels g).map definitionName := by
  rw [definitions, labels, List.filterMap_filterMap, List.map_filterMap]
  refine List.filterMap_congr fun id _ => ?_
  -- A block has a definition and a label in the same case: it has hints and is in the graph.
  cases hhints : t.get? id <;> cases hblock : g.block? id <;>
    simp [label?, hhints, hblock, definition, Decl.name?]

variable {t g}

/-- A block with a `label?` is in the order of `definitions`, as it is in the graph. -/
private theorem mem_backwards_of_label? {id : BlockId} {label : String}
    (h : t.label? g id = some label) : id ∈ g.backwards := by
  obtain ⟨_, _, h⟩ := Option.bind_eq_some_iff.1 h
  obtain ⟨block, hblock, _⟩ := Option.map_eq_some_iff.1 h
  exact g.backwards_perm.mem_iff.2 ((g.blocks.mem_keys id).2 (Option.isSome_of_eq_some hblock))

/-- Every block has one definition, so these have different names exactly if the labels (`label?`)
    of different blocks differ. -/
theorem nodup_labels_iff : (t.labels g).Nodup ↔
    ∀ id id' label, t.label? g id = some label → t.label? g id' = some label → id = id' := by
  have hblocks : g.backwards.Nodup := g.backwards_perm.nodup_iff.2 g.nodup_ids
  rw [labels, List.Nodup, List.pairwise_filterMap]
  constructor
  · intro h id id' label hid hid'
    by_contra hne
    -- Having different labels is symmetric, so it does not matter which block comes first.
    have hsymm : Std.Symm fun a a' => ∀ b, t.label? g a = some b → ∀ b', t.label? g a' = some b' →
        b ≠ b' :=
      ⟨fun a a' h b hb b' hb' => (h b' hb' b hb).symm⟩
    exact h.forall (mem_backwards_of_label? hid) (mem_backwards_of_label? hid') hne label hid label
      hid' rfl
  · intro h
    refine hblocks.imp fun {id id'} hne label hid label' hid' heq => hne ?_
    exact h id id' label hid (heq ▸ hid')

end BlockHints

/-! ## Names of the parts of a proof -/

/-- The type constructor that an axiom of this kind gives a number to. -/
def VcAxiomKind.ctorName? : VcAxiomKind → Option String
  | .ctorBasic ty _ => some ty.render
  | .ctorDecl ctor _ => some ctor.name
  | _ => none

/-- The type constructors that `axioms` give a number to. -/
def ctorNames (axioms : List VcAxiom) : List String := axioms.filterMap fun ax => ax.kind.ctorName?

/-- The lemma that one axiom contributes to `ctorDecls` is named after its type constructor. -/
private theorem names_ownCtorParts {kind : VcAxiomKind} {parts : CtorParts}
    (h : kind.ctorParts = .ok parts) :
    parts.lemmas.map Lemma.name = kind.ctorName?.toList.map ctorLemmaName := by
  cases kind with
  | ctorBasic ty value =>
    cases ty <;> cases h <;> rfl
  | _ => cases h; rfl

/-- The lemmas that all axioms contribute are named after `ctorNames`. -/
private theorem names_ctorParts {axioms : List VcAxiom} {parts : CtorParts}
    (h : ctorParts axioms = .ok parts) :
    parts.lemmas.map Lemma.name = (ctorNames axioms).map ctorLemmaName := by
  induction axioms generalizing parts with
  | nil =>
    cases h
    rfl
  | cons ax axioms ih =>
    obtain ⟨own, hown, h⟩ := bind_eq_ok_iff.1 h
    obtain ⟨others, hothers, h⟩ := bind_eq_ok_iff.1 h
    obtain rfl := Except.ok.inj h
    rw [CtorParts.append, List.map_append, names_ownCtorParts hown, ih hothers, ← List.map_append]
    cases hname : ax.kind.ctorName? <;> simp [ctorNames, hname]

/-- The names of `ctorDecls`: the table, the function and the lemmas. -/
private theorem names_ctorDecls {axioms : List VcAxiom} {decls : List Decl}
    (h : ctorDecls axioms = .ok decls) :
    decls.filterMap Decl.name? =
      [ctorTableName, ctorName] ++ (ctorNames axioms).map ctorLemmaName := by
  obtain ⟨parts, hparts, h⟩ := bind_eq_ok_iff.1 h
  obtain rfl := Except.ok.inj h
  rw [List.filterMap_append, names_statements, names_ctorParts hparts]
  rfl

/-- `vcFunction` defines `vcName`. -/
private theorem name_vcFunction {f : Function} {decl : Decl} (h : vcFunction f = .ok decl) :
    decl.name? = some f.vcName := by
  obtain ⟨_, _, h⟩ := bind_eq_ok_iff.1 h
  obtain rfl := Except.ok.inj h
  rfl

/-- `correspondence` is named `correspondenceName`. -/
private theorem name_correspondence {f : Function} {l : Lemma} (h : correspondence f = .ok l) :
    l.name = f.correspondenceName := by
  obtain ⟨_, _, h⟩ := bind_eq_ok_iff.1 h
  obtain ⟨_, _, h⟩ := bind_eq_ok_iff.1 h
  obtain rfl := Except.ok.inj h
  rfl

/-- The names of `functionPhase`: all counterparts, then all lemmas about them. -/
private theorem names_functionPhase {functions : List Function} {phase : FunctionPhase}
    (h : functionPhase functions = .ok phase) :
    phase.decls.filterMap Decl.name? =
      functions.map Function.vcName ++ functions.map Function.correspondenceName := by
  obtain ⟨hdefinitions, hcorrespondences⟩ := functionPhase_eq_ok h
  have hfirst : phase.definitions.map Decl.name? = functions.map fun f => some f.vcName :=
    map_eq_map_of_mapM_eq_ok hdefinitions fun _ _ => name_vcFunction
  have hsecond : phase.correspondences.map Lemma.name =
      functions.map Function.correspondenceName :=
    map_eq_map_of_mapM_eq_ok hcorrespondences fun _ _ => name_correspondence
  -- Every definition has a name, so none is left out.
  have hnames : phase.definitions.filterMap Decl.name? =
      (phase.definitions.map Decl.name?).filterMap id := by
    rw [List.filterMap_map]
    rfl
  rw [FunctionPhase.decls, List.filterMap_append, names_statements, hsecond, hnames, hfirst,
    List.filterMap_map]
  exact congrArg (· ++ functions.map Function.correspondenceName)
    (congrFun List.filterMap_eq_map functions)

/-- The names of `Assembly.proof`, in order. -/
private theorem Assembly.names_proof {a : Assembly} {decls : List Decl} (h : a.proof = .ok decls) :
    decls.filterMap Decl.name? =
      a.program.functions.map Function.vcName ++
        a.program.functions.map Function.correspondenceName ++
        a.vc.axioms.map VcAxiom.name ++ [ctorTableName, ctorName] ++
        (ctorNames a.vc.axioms).map ctorLemmaName ++ [endToEndName] := by
  obtain ⟨phase, ctors, assumptions, script, hphase, hctors, _, _, rfl⟩ := proof_cases h
  have haxioms : (a.vc.axioms.map VcAxiom.definition).filterMap Decl.name? =
      a.vc.axioms.map VcAxiom.name := by
    rw [List.filterMap_map]
    exact congrFun List.filterMap_eq_map a.vc.axioms
  simp only [List.filterMap_append,
    names_functionPhase hphase, haxioms, names_ctorDecls hctors, List.append_assoc]
  rfl

/-! ## Names of a document -/

namespace Session

/-- What the names of the document of a procedure are made from, as `NameParts`. -/
def nameParts (s : Session) (catalog : Catalog) (p : Program) (g : Graph) (vc : VcInput) :
    NameParts where
  scope := catalog.scope.lemmas.map Lemma.name
  labels := s.vcHints.labels g
  functions := p.functions.map Function.name
  axioms := vc.axioms.map VcAxiom.name
  ctors := ctorNames vc.axioms

variable {s : Session} {vc : VcInput} {enclosing : List Scope} {theory : Theory}

/-- The names of a document are those of its `nameParts`. -/
private theorem names_assembled {catalog : Catalog} {p : Program} {g : Graph} {proof : List Decl}
    (h : (s.assembly catalog p g vc).proof = .ok proof) :
    (catalog.scope.decls ++ s.vcHints.definitions g ++ proof).filterMap Decl.name? =
      (s.nameParts catalog p g vc).names := by
  have hcounterparts : (s.nameParts catalog p g vc).counterparts =
      p.functions.map Function.vcName :=
    List.map_map
  have hcorrespondences : (s.nameParts catalog p g vc).correspondences =
      p.functions.map Function.correspondenceName :=
    List.map_map
  rw [List.filterMap_append, List.filterMap_append, Scope.names_decls, BlockHints.names_definitions,
    Assembly.names_proof h, NameParts.names, hcounterparts, hcorrespondences]
  simp only [List.append_assoc]
  rfl

/-- Whatever was called before: the `names` of a document are unique exactly if functions, type
    constructors, labels of blocks with hints and axioms are called so that no two names meet
    (`Clear`).  Of the labels this asks that different blocks have different ones; of the lemmas of
    the scope it asks nothing. -/
theorem document_names_unique_iff (h : (s.call (.generate vc enclosing)).1 = .ok (some theory)) :
    ∃ p g created, s.program = some p ∧ s.finalGraph = some g ∧
      Catalog.create s.config {} p.globalIds p.localIds enclosing = .ok created ∧
      let parts := s.nameParts (created.addProgram p).2 p g vc
      theory.names = parts.names ∧ (theory.names.Nodup ↔ parts.Clear) ∧
      (parts.labels.Nodup ↔ ∀ id id' label, s.vcHints.label? g id = some label →
        s.vcHints.label? g id' = some label → id = id') := by
  obtain ⟨_, p, g, created, catalog, proof, hp, hg, hcreate, hadd, hproof, rfl⟩ :=
    s.assemble_eq_ok_iff.1 (s.call_generate_eq_ok_iff.1 h)
  obtain rfl : (created.addProgram p).2 = catalog := congrArg Prod.snd hadd
  obtain ⟨hnamed, hhelpers⟩ := Catalog.wellNamed_of_steps hcreate (created.addProgram_steps p)
  have hnames := names_assembled hproof
  refine ⟨p, g, created, hp, hg, hcreate, hnames, ?_, BlockHints.nodup_labels_iff⟩
  -- The lemmas of the scope have unique names with known leads, whatever was registered.
  rw [Theory.names, hnames]
  exact NameParts.nodup_names_iff (hnamed.nodup_names hhelpers) fun x hx =>
    hnamed.led_names hhelpers hx

/-- The calls of a session about a program with functions of these `names`. -/
def functionCalls (names : List String) : List Call :=
  [.program { functions := names.map fun name => ⟨name, [], [], .int⟩ },
   .beforeAcyclification oneBlock, .beforeRenaming (.unchanged oneBlock), .afterRenaming [],
   .afterDeadBlockRemoval (.unchanged oneBlock), .afterUnreachablePruning (.unchanged oneBlock)]

/-- Names that are close to one another but do not meet, such as `vc_fun_x_corres` and
    `vc_x_corres`. -/
theorem document_names_unique_close :
    ∃ theory,
      ((run { config := {} } (functionCalls ["x_corres", "x"] ++ [.hint 0 trivialHint])).2.call
        (.generate (conditionWith (.ctorDecl ⟨"entry_hints", 0⟩ 2)) [])).1 = .ok (some theory) ∧
      theory.names = helperNames ++
        ["mfun_x_corres", "mfun_x", "entry_hints", "vc_fun_x_corres", "vc_fun_x",
         "vc_x_corres_corres", "vc_x_corres", "ax", "ctor_table", "ctor", "ctor_entry_hints",
         "end_to_end"] ∧
      theory.names.Nodup := by
  obtain ⟨theory, htheory⟩ : ∃ theory,
      ((run { config := {} } (functionCalls ["x_corres", "x"] ++ [.hint 0 trivialHint])).2.call
        (.generate (conditionWith (.ctorDecl ⟨"entry_hints", 0⟩ 2)) [])).1 = .ok (some theory) :=
    ⟨_, rfl⟩
  obtain ⟨p, g, created, hp, hg, hcreate, hnames, hunique, _⟩ := document_names_unique_iff htheory
  obtain rfl := Option.some.inj hp
  obtain rfl := Option.some.inj hg
  obtain rfl := Except.ok.inj hcreate
  exact ⟨theory, htheory, hnames.trans rfl, hunique.2 (by decide)⟩

/-- A function and the lemma about another can have the same name, and so can the table of type
    constructors and the lemma about a constructor; then `theory.names` has repetitions. -/
theorem document_names_meet :
    (∃ theory, documentAfter (functionCalls ["x_corres", "fun_x"]) = .ok (some theory) ∧
      ¬theory.names.Nodup) ∧
    ∃ theory, ((run { config := {} } (functionCalls [])).2.call
        (.generate (conditionWith (.ctorDecl ⟨"table", 0⟩ 2)) [])).1 = .ok (some theory) ∧
          ¬theory.names.Nodup :=
  ⟨⟨_, rfl, by decide⟩, _, rfl, by decide⟩

end Session

end Warrant
