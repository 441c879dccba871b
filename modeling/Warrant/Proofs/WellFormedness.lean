import Warrant.Proofs.Delegation

/-!
# What the lemmas about well-formedness are about

A scope that generates functions states of each of its four lists of variables that the declared
types are well-formed, and concludes that the variable context is.  The context consists of the
lists that represent the variables in the scope, which may be those of a scope around it; the four
lemmas are about the definitions that the scope itself would give the lists.  The two are the same
for a list that the scope generates.  For another they are the same only if the scope that generates
the list has given it the same qualified name.

* `Built.wellFormedness_eq`: the lemmas about well-formedness in every chain of scopes.
* `VarList.inContext_from_nearest`: where the lists of the variable context come from.
* `wellFormed_about_context_iff`: which of the four lemmas are about the variable context.
-/

namespace Warrant

open Vocabulary

/-- The lists of variables that `ListNames` has a name for. -/
inductive VarList where
  | consts
  | globals
  | params
  | locals
  deriving DecidableEq, Repr

namespace VarList

/-- The name of the lemma that the declared types of the list are well-formed. -/
def lemmaName : VarList → String
  | consts => constsWfName
  | globals => globalsWfName
  | params => paramsWfName
  | locals => localsWfName

/-- The name that a scope gives its own definition of the list, in its `ListNames`. -/
def own : VarList → ListNames → String
  | consts => ListNames.consts
  | globals => ListNames.globals
  | params => ListNames.params
  | locals => ListNames.locals

/-- The list in the `varContext` of a scope. -/
def inContext : VarList → Scope → String
  | consts => Scope.consts
  | globals => Scope.globals
  | params => Scope.params
  | locals => Scope.locals

/-- A scope with these `Groups` defines the list itself. -/
def generated : VarList → Groups → Bool
  | consts | globals => Groups.globals
  | params | locals => Groups.locals

/-- The list `inContext` is the one that the nearest scope which generates it defines. -/
theorem inContext_from_nearest (v : VarList) {s : Scope} {enclosing : List Scope}
    (h : Delegated (s :: enclosing)) :
    ∃ g, (s :: enclosing).find? (fun u => v.generated u.generates) = some g ∧
      v.inContext s = g.qualify (v.own g.names) := by
  obtain ⟨g, hg, hglobals⟩ := Group.globals.from_nearest h
  obtain ⟨l, hl, hlocals⟩ := Group.locals.from_nearest h
  cases v with
  | consts => exact ⟨g, hg, congrArg Prod.fst hglobals⟩
  | globals => exact ⟨g, hg, congrArg (·.2.1) hglobals⟩
  | params => exact ⟨l, hl, congrArg Prod.fst hlocals⟩
  | locals => exact ⟨l, hl, congrArg Prod.snd hlocals⟩

end VarList

/-- The variable context that consists of the four `lists`. -/
def contextOf (lists : VarList → String) : Term :=
  .tuple [append (.ident (lists .consts)) (.ident (lists .globals)),
    append (.ident (lists .params)) (.ident (lists .locals))]

/-- Every type that a look-up in the variable context `context` gives is well-formed. -/
def contextWf (context : Term) : Term :=
  .all ["x", "\\<tau>"]
    (.implies (.eq (Semantics.lookupVarTy context (.ident "x")) (someOf (.ident "\\<tau>")))
      (.app wfTy [.ident "\\<tau>"]))

/-- Every type that the list of variables `list` declares is well-formed. -/
def listWf (list : String) : Term := listAll (composition wfTy snd) (.ident list)

/-- `listWf` tells which list it is about. -/
private theorem listWf_injective {list list' : String} (h : listWf list = listWf list') :
    list = list' := by
  simpa [listWf, listAll, Term.call] using h

/-- The scope has exactly one lemma about well-formedness with the `name`, with this statement and
    script. -/
def Scope.StatesWf (s : Scope) (name : String) (statement : Term) (script : Script) : Prop :=
  s.wellFormedness.filter (·.name = name) = [{ name, statement, script }]

/-- The scope states, by unfolding `list`, that the types that it declares are well-formed
    (`listWf`). -/
def Scope.StatesListWf (s : Scope) (v : VarList) (list : String) : Prop :=
  s.StatesWf v.lemmaName (listWf list) ["unfolding " ++ list ++ "_def", "by simp"]

/-- The lemma of a scope about a `VarList` is about one list. -/
theorem Scope.StatesListWf.unique {s : Scope} {v : VarList} {list list' : String}
    (h : s.StatesListWf v list) (h' : s.StatesListWf v list') : list = list' := by
  have hlemma := List.singleton_inj.1 (h.symm.trans h')
  exact listWf_injective (congrArg Lemma.statement hlemma)

/-! ## The lemmas of a scope -/

/-- Of the `helperLemmas` those about well-formedness are `wellFormednessLemmas`. -/
private theorem filter_helperLemmas (s : Scope) (low : VarId) (script : Script) :
    (helperLemmas s low script).filter (·.name ∈ wellFormednessNames) =
      if s.generates.functions then wellFormednessLemmas s else [] := by
  unfold helperLemmas
  cases s.generates.globals <;> cases s.generates.functions <;> rfl

namespace Built

variable {s : Scope} {enclosing : List Scope}

/-- In a `Built` chain a scope that generates functions has the `wellFormednessLemmas`. -/
theorem wellFormedness_eq (h : Built (s :: enclosing)) :
    s.wellFormedness = if s.generates.functions then wellFormednessLemmas s else [] := by
  obtain ⟨low, script, hhelpers, _⟩ := h.helpers
  rw [Scope.wellFormedness, hhelpers]
  exact filter_helperLemmas s low script

/-- What the lemmas about well-formedness say in a scope that has them: `listWf` of its own lists,
    and `contextWf` of its `varContext`. -/
private theorem statesWf (h : Built (s :: enclosing)) (hwf : s.wellFormedness ≠ []) :
    (∀ v : VarList, s.StatesListWf v (v.own s.names)) ∧
      s.StatesWf varContextWfName (contextWf s.varContext)
        ["apply (rule lookup_ty_pred_2)",
          "by (simp_all add: consts_wf globals_wf params_wf locals_wf)"] := by
  have heq := h.wellFormedness_eq
  cases hgen : s.generates.functions with
  | false => exact absurd (by rw [heq, hgen]; rfl) hwf
  | true =>
    rw [hgen, if_pos rfl] at heq
    constructor
    · intro v
      rw [Scope.StatesListWf, Scope.StatesWf, heq]
      cases v <;> rfl
    · rw [Scope.StatesWf, heq]
      rfl

end Built

/-- In every `Built` chain, of a scope that has lemmas about well-formedness: each of the four is
    about the list that the scope would define itself (`own`), while the variable context, whose
    lemma rests on the four, consists of the lists that it sees (`inContext`).  A lemma is about the
    list of the context exactly if the scope generates the list, or the nearest scope around it that
    does has given it the same qualified name. -/
theorem wellFormed_about_context_iff {s : Scope} {enclosing : List Scope}
    (h : Built (s :: enclosing)) (hwf : s.wellFormedness ≠ []) :
    s.StatesWf varContextWfName (contextWf s.varContext)
        ["apply (rule lookup_ty_pred_2)",
          "by (simp_all add: consts_wf globals_wf params_wf locals_wf)"] ∧
      s.varContext = contextOf (·.inContext s) ∧
      ∀ v : VarList, s.StatesListWf v (v.own s.names) ∧
        ((∃ list, s.StatesListWf v list ∧ s.qualify list = v.inContext s) ↔
          v.generated s.generates = true ∨
            ∃ g, enclosing.find? (fun u => v.generated u.generates) = some g ∧
              g.qualify (v.own g.names) = s.qualify (v.own s.names)) := by
  obtain ⟨hlists, hcontext⟩ := h.statesWf hwf
  refine ⟨hcontext, rfl, fun v => ⟨hlists v, ?_⟩⟩
  obtain ⟨g, hg, hfrom⟩ := v.inContext_from_nearest h.delegated
  rw [hfrom]
  cases hgen : v.generated s.generates with
  | true =>
    rw [List.find?_cons_of_pos (by exact hgen)] at hg
    obtain rfl := Option.some.inj hg
    exact iff_of_true ⟨_, hlists v, rfl⟩ (.inl rfl)
  | false =>
    -- Otherwise the list comes from the nearest scope around.
    rw [List.find?_cons_of_neg (by rw [hgen]; exact Bool.false_ne_true)] at hg
    constructor
    · rintro ⟨list, hlist, heq⟩
      obtain rfl := hlist.unique (hlists v)
      exact .inr ⟨g, hg, heq.symm⟩
    · rintro (hgenerated | ⟨g', hg', heq⟩)
      · cases hgenerated
      · obtain rfl := Option.some.inj (hg.symm.trans hg')
        exact ⟨_, hlists v, heq.symm⟩

/-- A scope that has functions, parameters and locals of its own and takes constants and globals
    from around it. -/
def unitConfig : Config := { theory := "unit", generates := { axioms := false, globals := false } }

/-- A scope with `unitConfig` inside a program: the lemma about its parameters is about its variable
    context, the one about constants is not. -/
theorem wellFormed_about_context_unit :
    ∃ program unit, Catalog.create { theory := "program" } {} [1, 2] [] [] = .ok program ∧
      Catalog.create unitConfig {} [1, 2] [7] [(program.run programCalls).2.scope] = .ok unit ∧
      let s := (unit.run []).2.scope
      s.wellFormedness ≠ [] ∧
        (∃ list, s.StatesListWf .params list ∧ s.qualify list = s.params) ∧
        ¬ ∃ list, s.StatesListWf .consts list ∧ s.qualify list = s.consts := by
  obtain ⟨program, hprogram⟩ :
      ∃ c, Catalog.create { theory := "program" } {} [1, 2] [] [] = .ok c :=
    ⟨_, rfl⟩
  obtain ⟨unit, hunit⟩ : ∃ c, Catalog.create unitConfig {} [1, 2] [7]
      [(program.run programCalls).2.scope] = .ok c := by
    obtain rfl := Except.ok.inj hprogram
    exact ⟨_, rfl⟩
  -- What the scopes generate and how they cite their constants.
  obtain ⟨hpGen, hpConsts⟩ : (program.run programCalls).2.scope.generates = {} ∧
      (program.run programCalls).2.scope.qualify
          (VarList.consts.own (program.run programCalls).2.scope.names) =
        "program.consts_vdecls" := by
    obtain rfl := Except.ok.inj hprogram
    exact ⟨rfl, rfl⟩
  obtain ⟨hwf, hGen, hConsts⟩ : (unit.run []).2.scope.wellFormedness ≠ [] ∧
      (unit.run []).2.scope.generates = unitConfig.generates ∧
      (unit.run []).2.scope.qualify (VarList.consts.own (unit.run []).2.scope.names) =
        "unit.consts_vdecls" := by
    obtain rfl := Except.ok.inj hprogram
    obtain rfl := Except.ok.inj hunit
    exact ⟨List.cons_ne_nil _ _, rfl, rfl⟩
  obtain ⟨_, _, hiff⟩ :=
    wellFormed_about_context_iff (.cons (.cons .nil hprogram programCalls) hunit []) hwf
  refine ⟨program, unit, hprogram, hunit, hwf, (hiff .params).2.2 (.inl (by rw [hGen]; rfl)),
    fun h => ?_⟩
  obtain hgen | ⟨g, hg, heq⟩ := (hiff .consts).2.1 h
  · rw [hGen] at hgen
    cases hgen
  · rw [List.find?_cons_of_pos (by rw [hpGen]; rfl)] at hg
    obtain rfl := Option.some.inj hg
    rw [hpConsts, hConsts] at heq
    exact absurd heq (by decide)

/-- A scope with `moduleConfig`, which generates functions only, states well-formedness of lists
    that are not in its variable context. -/
theorem wellFormed_not_about_context :
    ∃ program module, Catalog.create { theory := "program" } {} [1, 2] [] [] = .ok program ∧
      Catalog.create moduleConfig {} [1, 2] [] [program.scope] = .ok module ∧
      module.scope.wellFormedness ≠ [] ∧
      module.scope.StatesListWf .consts "consts_vdecls" ∧
      module.scope.qualify "consts_vdecls" = "module.consts_vdecls" ∧
      module.scope.consts = "program.consts_vdecls" ∧
      ¬ ∃ list, module.scope.StatesListWf .consts list ∧
        module.scope.qualify list = module.scope.consts := by
  refine ⟨_, _, rfl, rfl, List.cons_ne_nil _ _, rfl, rfl, rfl, ?_⟩
  rintro ⟨list, hlist, hcontext⟩
  obtain rfl : list = "consts_vdecls" := hlist.unique rfl
  exact absurd hcontext (by decide)

end Warrant
