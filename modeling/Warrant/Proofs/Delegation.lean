import Warrant.Proofs.Citations

/-!
# What scopes take from those around them

What a scope does not generate it has from the scopes around it, in two ways.  Its lists and its
bound on the ids of globals are copied from the scope directly around it when it is created; the
names of lemmas are looked up along the scopes when they are asked for.  In every chain of scopes
both lead to the same scope, the nearest one that generates the group, and the lemmas that are cited
stand there.

* `Group`: a part of scopes that is copied; `Group.from_nearest` says where it comes from.
* `delegation_agrees`: the two ways together.
-/

namespace Warrant

/-! ## Copying from the scope around -/

/-- A scope without its lemmas, neither those of declarations nor `helpers`. -/
def Scope.core (s : Scope) : Scope := { s.cleared with helpers := [] }

/-- A part of scopes that depends on whether they generate a group of declarations: a scope that
    does has the part itself, another copies it from the scope around it. -/
structure Group (α : Type) where
  generated : Groups → Bool
  part : Scope → α
  /-- The part of a scope that generates the group. -/
  own : Scope → α
  part_core : ∀ s, part s.core = part s
  own_core : ∀ s, own s.core = own s
  part_ownScope : ∀ config names globalIds localIds, config.generates = {} →
    generated config.generates = true ∧
      part (ownScope config names globalIds localIds) =
        own (ownScope config names globalIds localIds)
  part_delegatingScope : ∀ config names globalIds localIds p,
    part (delegatingScope config names globalIds localIds p) =
      if generated config.generates then own (delegatingScope config names globalIds localIds p)
        else part p

namespace Group

/-- The lists `consts` and `globals`, and the bound on their ids. -/
def globals : Group (String × String × VarId) where
  generated := Groups.globals
  part s := (s.consts, s.globals, s.globalsBound)
  own s := (s.qualify s.names.consts, s.qualify s.names.globals, s.globalsBound)
  part_core _ := rfl
  own_core _ := rfl
  part_ownScope _ _ _ _ h := ⟨congrArg Groups.globals h, rfl⟩
  part_delegatingScope config _ _ _ _ := by
    unfold delegatingScope
    cases config.generates.globals <;> rfl

/-- The lists `params` and `locals`. -/
def locals : Group (String × String) where
  generated := Groups.locals
  part s := (s.params, s.locals)
  own s := (s.qualify s.names.params, s.qualify s.names.locals)
  part_core _ := rfl
  own_core _ := rfl
  part_ownScope _ _ _ _ h := ⟨congrArg Groups.locals h, rfl⟩
  part_delegatingScope config _ _ _ _ := by
    unfold delegatingScope
    cases config.generates.locals <;> rfl

/-- The list `functions`. -/
def functions : Group String where
  generated := Groups.functions
  part s := s.functions
  own s := s.qualify s.names.funcs
  part_core _ := rfl
  own_core _ := rfl
  part_ownScope _ _ _ _ h := ⟨congrArg Groups.functions h, rfl⟩
  part_delegatingScope config _ _ _ _ := by
    unfold delegatingScope
    cases config.generates.functions <;> rfl

variable {α : Type} (group : Group α)

/-- A scope from `resolveScope` has a part itself or has copied it. -/
private theorem part_of_resolveScope {config : Config} {names : ListNames}
    {globalIds localIds : List VarId} {enclosing : List Scope} {s : Scope}
    (h : resolveScope config names globalIds localIds enclosing = .ok s) :
    (group.generated s.generates = true ∧ group.part s = group.own s) ∨
      group.generated s.generates = false ∧ ∃ p outer, enclosing = p :: outer ∧
        group.part s = group.part p := by
  obtain ⟨hgen, rfl⟩ | ⟨p, outer, rfl, rfl⟩ := resolveScope_cases h
  · exact .inl (group.part_ownScope config names globalIds localIds hgen)
  · have hpart := group.part_delegatingScope config names globalIds localIds p
    cases hgen : group.generated config.generates with
    | true => exact .inl ⟨hgen, by rw [hpart, if_pos hgen]⟩
    | false => exact .inr ⟨hgen, p, outer, rfl, by rw [hpart, hgen]; rfl⟩

/-- In a `Delegated` chain a part comes from the nearest scope that generates the group. -/
theorem from_nearest {s : Scope} {enclosing : List Scope} (h : Delegated (s :: enclosing)) :
    ∃ g, (s :: enclosing).find? (fun u => group.generated u.generates) = some g ∧
      group.part s = group.own g := by
  generalize hchain : s :: enclosing = chain at h
  induction h generalizing s enclosing with
  | nil => cases hchain
  | @cons config names globalIds localIds outer c s' houter hcreate hs ih =>
    obtain ⟨rfl, rfl⟩ := List.cons.inj hchain
    obtain ⟨base, script, hbase, _, _, rfl⟩ := Catalog.create_eq_ok hcreate
    -- Neither the helper lemmas nor what was registered matters for the part.
    have hcore : s.core = base.core := congrArg (fun u : Scope => { u with helpers := [] }) hs
    have hgenerates : s.generates = base.generates := (congrArg Scope.generates hcore :)
    have hpart : group.part s = group.part base := by rw [← group.part_core, hcore, group.part_core]
    have hown : group.own s = group.own base := by rw [← group.own_core, hcore, group.own_core]
    rw [hpart]
    rcases group.part_of_resolveScope hbase with ⟨hgen, heq⟩ | ⟨hgen, p, outer', rfl, heq⟩
    · -- The scope has the part itself, or copies that of the scope around it.
      refine ⟨s, List.find?_cons_of_pos ?_, by rw [heq, hown]⟩
      rw [hgenerates, hgen]
    · obtain ⟨g, hg, hfrom⟩ := ih rfl
      refine ⟨g, ?_, heq.trans hfrom⟩
      rw [List.find?_cons_of_neg (by rw [hgenerates, hgen]; exact Bool.false_ne_true)]
      exact hg

end Group

/-! ## The lemmas that are cited -/

namespace Built

variable {chain : List Scope}

/-- A `Built` chain is `Delegated`, as registration keeps what scopes copy. -/
theorem delegated (h : Built chain) : Delegated chain := by
  induction h with
  | nil => exact .nil
  | @cons config names globalIds localIds enclosing c houter hcreate calls ih =>
    exact .cons ih hcreate (c.run_steps calls).extends.cleared

variable {g : Scope}

/-- Every scope of a `Built` chain has `helperLemmas`. -/
private theorem helpers_of_mem (h : Built chain) (hg : g ∈ chain) :
    ∃ low script, g.helpers = helperLemmas g low script := by
  induction h with
  | nil => cases hg
  | @cons config names globalIds localIds enclosing c houter hcreate calls ih =>
    obtain rfl | hg := List.mem_cons.1 hg
    · obtain ⟨low, script, hhelpers, _⟩ := (Built.cons houter hcreate calls).helpers
      exact ⟨low, script, hhelpers⟩
    · exact ih hg

/-- A scope that generates globals states its `globalsBound`. -/
private theorem states_globalsBound (h : Built chain) (hg : g ∈ chain)
    (hgen : g.generates.globals = true) : g.StatesGlobalsMax g.globalsBound := by
  obtain ⟨low, script, hhelpers⟩ := h.helpers_of_mem hg
  exact statesGlobalsMax_of_helpers hhelpers hgen

/-- A scope that generates functions has all lemmas of `wellFormednessNames`. -/
private theorem wellFormednessNames_subset (h : Built chain) (hg : g ∈ chain)
    (hgen : g.generates.functions = true) : wellFormednessNames ⊆ g.decls.filterMap Decl.name? := by
  obtain ⟨low, script, hhelpers⟩ := h.helpers_of_mem hg
  intro name hname
  have hhelper : name ∈ g.helpers.map Lemma.name := by
    rw [hhelpers, helperLemmas_names, hgen]
    exact List.mem_append_right _ hname
  rw [Scope.names_decls, Scope.lemmas, List.map_append, List.map_append, List.map_append]
  exact List.mem_append_left _ (List.mem_append_left _ (List.mem_append_left _ hhelper))

end Built

/-- A scope has registered a declaration: it has a lemma in `members` that the declaration is in its
    list. -/
def Scope.registers (s : Scope) (key : DeclKey) : Bool := (s.members.get? key).isSome

/-- `memberLemma` is cited from the nearest scope that `registers` the declaration. -/
private theorem memberLemma_eq_ok_iff {chain : List Scope} {key : DeclKey} {cited : String} :
    memberLemma chain key = .ok cited ↔
      ∃ u m, chain.find? (·.registers key) = some u ∧ u.members.get? key = some m ∧
        cited = u.qualify m.name := by
  have hregisters : (fun s : Scope => ((s.members.get? key).map Lemma.name).isSome) =
      (·.registers key) := by
    funext s
    exact Option.isSome_map
  rw [memberLemma, nearest_eq_ok_iff, hregisters]
  constructor
  · rintro ⟨u, name, hu, hname, rfl⟩
    obtain ⟨m, hm, rfl⟩ := Option.map_eq_some_iff.1 hname
    exact ⟨u, m, hu, hm, rfl⟩
  · rintro ⟨u, m, hu, hm, rfl⟩
    exact ⟨u, m.name, hu, Option.map_eq_some_iff.2 ⟨m, hm, rfl⟩, rfl⟩

/-- `memberLemma` fails exactly if no scope `registers` the declaration. -/
private theorem memberLemma_eq_error_iff {chain : List Scope} {key : DeclKey} :
    memberLemma chain key = .error (.missingMembership key) ↔
      ∀ u ∈ chain, u.registers key = false := by
  rw [memberLemma, nearest_eq_error_iff]
  simp [Scope.registers]

/-- A lemma in `members` is one of the `lemmas` of the scope. -/
private theorem Scope.mem_lemmas_of_members {s : Scope} {key : DeclKey} {l : Lemma}
    (h : s.members.get? key = some l) : l ∈ s.lemmas := by
  have hmem : l ∈ s.members.lemmas := List.mem_map_of_mem (LemmaTable.mem_of_get? h)
  exact List.mem_append_left _ (List.mem_append_right _ hmem)

/-- In every `Built` chain, whatever each scope generates and has registered, copying and looking
    along the scopes agree.

    The lists of constants and globals, the bound on their ids and the lemma about the bound all
    come from the nearest scope that generates globals, where the lemma states this bound.  The
    lists of parameters and locals come from the nearest scope that generates locals.  The list of
    functions and the lemmas that functions and the variable context are well-formed come from the
    nearest scope that generates functions, which has lemmas of these names.  The membership of a
    declaration is the lemma of the nearest scope that `registers` it, and cannot be cited exactly
    if no scope does. -/
theorem delegation_agrees {s : Scope} {enclosing : List Scope} (h : Built (s :: enclosing)) :
    (∃ g, (s :: enclosing).find? (·.generates.globals) = some g ∧
      s.consts = g.qualify g.names.consts ∧ s.globals = g.qualify g.names.globals ∧
      s.globalsBound = g.globalsBound ∧
      globalsMaxLemma (s :: enclosing) = .ok (g.qualify "globals_max") ∧
      g.StatesGlobalsMax s.globalsBound) ∧
    (∃ g, (s :: enclosing).find? (·.generates.locals) = some g ∧
      s.params = g.qualify g.names.params ∧ s.locals = g.qualify g.names.locals) ∧
    (∃ g, (s :: enclosing).find? (·.generates.functions) = some g ∧
      s.functions = g.qualify g.names.funcs ∧
      funcsWfLemma (s :: enclosing) = .ok (g.qualify "funcs_wf") ∧
      varContextWfLemma (s :: enclosing) = .ok (g.qualify "var_context_wf") ∧
      "funcs_wf" ∈ g.decls.filterMap Decl.name? ∧ "var_context_wf" ∈ g.decls.filterMap Decl.name?) ∧
    ∀ key,
      (∀ cited, memberLemma (s :: enclosing) key = .ok cited ↔
        ∃ u m, (s :: enclosing).find? (·.registers key) = some u ∧ u.members.get? key = some m ∧
          m ∈ u.lemmas ∧ cited = u.qualify m.name) ∧
      (memberLemma (s :: enclosing) key = .error (.missingMembership key) ↔
        ∀ u ∈ s :: enclosing, u.registers key = false) := by
  refine ⟨?_, ?_, ?_, fun key => ⟨fun cited => ?_, memberLemma_eq_error_iff⟩⟩
  · obtain ⟨g, hg, hfrom⟩ := Group.globals.from_nearest h.delegated
    obtain ⟨hconsts, hrest⟩ := Prod.mk.inj hfrom
    obtain ⟨hglobals, hbound⟩ := Prod.mk.inj hrest
    refine ⟨g, hg, hconsts, hglobals, hbound, nearest_flag_eq_ok_iff.2 ⟨g, hg, rfl⟩, ?_⟩
    -- The scope `g` generates globals, so it has the lemma itself.
    have hgen := List.find?_some hg
    rw [hbound]
    exact h.states_globalsBound (List.mem_of_find?_eq_some hg) hgen
  · obtain ⟨g, hg, hfrom⟩ := Group.locals.from_nearest h.delegated
    obtain ⟨hparams, hlocals⟩ := Prod.mk.inj hfrom
    exact ⟨g, hg, hparams, hlocals⟩
  · obtain ⟨g, hg, hfrom⟩ := Group.functions.from_nearest h.delegated
    have hgen := List.find?_some hg
    -- A scope that generates functions has all lemmas about well-formedness.
    have hnames := h.wellFormednessNames_subset (List.mem_of_find?_eq_some hg) hgen
    exact ⟨g, hg, hfrom, nearest_flag_eq_ok_iff.2 ⟨g, hg, rfl⟩,
      nearest_flag_eq_ok_iff.2 ⟨g, hg, rfl⟩, hnames (by decide), hnames (by decide)⟩
  · rw [memberLemma_eq_ok_iff]
    constructor
    · rintro ⟨u, m, hu, hm, hcited⟩
      exact ⟨u, m, hu, hm, u.mem_lemmas_of_members hm, hcited⟩
    · rintro ⟨u, m, hu, hm, _, hcited⟩
      exact ⟨u, m, hu, hm, hcited⟩

/-- The settings of a scope between a program and a procedure that generates functions only. -/
def moduleConfig : Config :=
  { theory := "module", generates := { axioms := false, globals := false, locals := false } }

/-- A function, and under another name a constant that is known in the program already. -/
def moduleCalls : List Catalog.Call :=
  [.functions [⟨"f", [], [], .int⟩], .vars [⟨"k", .int, 1⟩] .constant true]

/-- A procedure that has its own parameters and locals, cites functions from the scope around it,
    with `moduleConfig`, and globals from the program.  The constant is registered in both; the
    lemma of the nearer scope is cited. -/
theorem delegation_agrees_module :
    ∃ program module procedure,
      Catalog.create { theory := "program" } {} [1, 2] [] [] = .ok program ∧
      Catalog.create moduleConfig {} [1, 2] [] [(program.run programCalls).2.scope] = .ok module ∧
      Catalog.create (Config.forProcedure {} "proc") {} [1, 2] [7]
        [(module.run moduleCalls).2.scope, (program.run programCalls).2.scope] = .ok procedure ∧
      let s := (procedure.run procedureCalls).2.scope
      let chain := [s, (module.run moduleCalls).2.scope, (program.run programCalls).2.scope]
      s.consts = "program.consts_vdecls" ∧ globalsMaxLemma chain = .ok "program.globals_max" ∧
      (program.run programCalls).2.scope.StatesGlobalsMax s.globalsBound ∧
      s.params = "proc.params_vdecls" ∧ s.functions = "module.fdecls" ∧
      varContextWfLemma chain = .ok "module.var_context_wf" ∧
      memberLemma chain (.variable 1) = .ok "module.m_k" ∧
      memberLemma chain (.variable 9) = .error (.missingMembership (.variable 9)) := by
  obtain ⟨program, hprogram⟩ :
      ∃ c, Catalog.create { theory := "program" } {} [1, 2] [] [] = .ok c :=
    ⟨_, rfl⟩
  obtain ⟨module, hmodule⟩ : ∃ c, Catalog.create moduleConfig {} [1, 2] []
      [(program.run programCalls).2.scope] = .ok c := by
    obtain rfl := Except.ok.inj hprogram
    exact ⟨_, rfl⟩
  obtain ⟨procedure, hprocedure⟩ : ∃ c, Catalog.create (Config.forProcedure {} "proc") {} [1, 2] [7]
      [(module.run moduleCalls).2.scope, (program.run programCalls).2.scope] = .ok c := by
    obtain rfl := Except.ok.inj hprogram
    obtain rfl := Except.ok.inj hmodule
    exact ⟨_, rfl⟩
  refine ⟨program, module, procedure, hprogram, hmodule, hprocedure, ?_⟩
  obtain ⟨⟨g, hg, hconsts, _, _, hmax, hstates⟩, ⟨l, hl, hparams, _⟩,
    ⟨f, hf, hfunctions, _, hwf, _⟩, hmember⟩ :=
    delegation_agrees (.cons (.cons (.cons .nil hprogram programCalls) hmodule moduleCalls)
      hprocedure procedureCalls)
  -- What the scopes are called, what they generate and what they have registered.
  obtain ⟨hpTheory, hpNames, hpGen, hpUnknown⟩ :
      (program.run programCalls).2.scope.theory = "program" ∧
      (program.run programCalls).2.scope.names = {} ∧
      (program.run programCalls).2.scope.generates = {} ∧
      (program.run programCalls).2.scope.registers (.variable 9) = false := by
    obtain rfl := Except.ok.inj hprogram
    exact ⟨rfl, rfl, rfl, rfl⟩
  obtain ⟨hmTheory, hmNames, hmGen, hmMember, hmUnknown⟩ :
      (module.run moduleCalls).2.scope.theory = "module" ∧
      (module.run moduleCalls).2.scope.names = {} ∧
      (module.run moduleCalls).2.scope.generates = moduleConfig.generates ∧
      ((module.run moduleCalls).2.scope.members.get? (.variable 1)).map Lemma.name = some "m_k" ∧
      (module.run moduleCalls).2.scope.registers (.variable 9) = false := by
    obtain rfl := Except.ok.inj hprogram
    obtain rfl := Except.ok.inj hmodule
    exact ⟨rfl, rfl, rfl, rfl, rfl⟩
  obtain ⟨hsTheory, hsNames, hsGen, hsUnknown⟩ :
      (procedure.run procedureCalls).2.scope.theory = "proc" ∧
      (procedure.run procedureCalls).2.scope.names = {} ∧
      (procedure.run procedureCalls).2.scope.generates = (Config.forProcedure {} "proc").generates ∧
      ∀ key ∈ [DeclKey.variable 1, .variable 9],
        (procedure.run procedureCalls).2.scope.registers key = false := by
    obtain rfl := Except.ok.inj hprogram
    obtain rfl := Except.ok.inj hmodule
    obtain rfl := Except.ok.inj hprocedure
    exact ⟨rfl, rfl, rfl, by decide⟩
  generalize (program.run programCalls).2.scope = p at *
  generalize (module.run moduleCalls).2.scope = m at *
  generalize (procedure.run procedureCalls).2.scope = s at *
  -- Each group has its nearest scope at another level of the chain.
  have hgp : g = p := by
    simpa [hsGen, hmGen, hpGen, Config.forProcedure, moduleConfig] using hg.symm
  have hls : l = s := by simpa [hsGen, Config.forProcedure] using hl.symm
  have hfm : f = m := by simpa [hsGen, hmGen, Config.forProcedure, moduleConfig] using hf.symm
  subst hgp hls hfm
  simp only [Scope.qualify, hpTheory, hmTheory, hsTheory, hpNames, hmNames, hsNames]
    at hconsts hmax hparams hfunctions hwf
  obtain ⟨k, hk, hkName⟩ := Option.map_eq_some_iff.1 hmMember
  have hkRegisters : f.registers (.variable 1) = true := by rw [Scope.registers, hk]; rfl
  refine ⟨hconsts, hmax, hstates, hparams, hfunctions, hwf, ?_, (hmember _).2.2 ?_⟩
  · refine ((hmember _).1 _).2
      ⟨f, k, by simp [hsUnknown, hkRegisters], hk, f.mem_lemmas_of_members hk, ?_⟩
    rw [Scope.qualify, hmTheory, hkName]
    rfl
  · simp [hsUnknown, hmUnknown, hpUnknown]

end Warrant
