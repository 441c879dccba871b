import Warrant.Proofs.Scripts

/-!
# What the lemmas of a scope cite

Citations are resolved when a lemma is filed, while the lemmas of a scope are written table by
table.  Still a lemma cites only what stands before it: membership lemmas cite the table of
constants, which stands before theirs, and look-up lemmas cite helpers and membership lemmas.
Tables only grow, so a citation stays right.

* `nearest_eq_ok_iff`, `nearest_eq_error_iff`: what is found by looking along the scopes.
* `MemberScript`, `LookupScript`: what the scripts of filed lemmas rest on.
* `Grounded`: all filed lemmas of a catalog have such scripts; `Step.grounded` keeps it.
* `Built`: chains of scopes with what was registered in each.
* `citations_resolve`: in every chain of scopes all lemmas are justified by those before them.
-/

namespace Warrant

/-! ## Looking along the scopes -/

section

variable {cause : Error} {find : Scope → Option String} {chain : List Scope}

/-- `nearest` cites what the nearest scope has that has anything. -/
theorem nearest_eq_ok_iff {cited : String} :
    nearest cause find chain = .ok cited ↔
      ∃ u name, chain.find? (fun s => (find s).isSome) = some u ∧ find u = some name ∧
        cited = u.qualify name := by
  induction chain with
  | nil => simp [nearest]
  | cons s outer ih =>
    rw [nearest]
    cases hfind : find s with
    | none => simp [hfind, ih]
    | some name =>
      rw [List.find?_cons_of_pos (by simp [hfind])]
      constructor
      · intro h
        exact ⟨s, name, rfl, hfind, (Except.ok.inj h).symm⟩
      · rintro ⟨u, name', hu, hname, rfl⟩
        obtain rfl := Option.some.inj hu
        rw [hfind] at hname
        rw [Option.some.inj hname]

/-- `nearest` fails exactly if no scope has anything. -/
theorem nearest_eq_error_iff :
    nearest cause find chain = .error cause ↔ ∀ u ∈ chain, find u = none := by
  induction chain with
  | nil => simp [nearest]
  | cons s outer ih =>
    rw [nearest]
    cases hfind : find s with
    | none => simp [hfind, ih]
    | some name => simp [hfind]

/-- A lemma that every scope with a flag has is cited from the `nearest` such scope. -/
theorem nearest_flag_eq_ok_iff {flag : Scope → Bool} {name cited : String} :
    nearest cause (fun s => if flag s then some name else none) chain = .ok cited ↔
      ∃ g, chain.find? flag = some g ∧ cited = g.qualify name := by
  have hsome : (fun s => (if flag s then some name else none : Option String).isSome) = flag := by
    funext s
    cases flag s <;> rfl
  rw [nearest_eq_ok_iff, hsome]
  constructor
  · rintro ⟨g, name', hg, hname, rfl⟩
    rw [if_pos (List.find?_some hg)] at hname
    exact ⟨g, hg, by rw [Option.some.inj hname]⟩
  · rintro ⟨g, hg, rfl⟩
    exact ⟨g, name, hg, if_pos (List.find?_some hg), rfl⟩

end

/-! ## Filed lemmas -/

/-- What the script of a lemma in `members` rests on: definitions of lists, or the lemma about the
    same declaration in `constMembers`. -/
inductive MemberScript (s : Scope) (key : DeclKey) : Script → Prop where
  | definition {list : String} (h : list ∈ s.definitions) :
      MemberScript s key (Script.by ("(simp add: " ++ list ++ "_def)"))
  | definitions {list list' : String} (h : list ∈ s.definitions) (h' : list' ∈ s.definitions) :
      MemberScript s key (Script.by ("(simp add: " ++ list ++ "_def " ++ list' ++ "_def)"))
  | constant {m : Lemma} (h : s.constMembers.get? key = some m) :
      MemberScript s key (constantScript m)

/-- What the script of a lemma in `lookups` rests on: disjointness, and the membership of the same
    declaration in this scope or in one around it. -/
def LookupScript (s : Scope) (enclosing : List Scope) (key : DeclKey) (script : Script) : Prop :=
  ∃ u ∈ s :: enclosing, ∃ m, u.members.get? key = some m ∧
    script = lookupScript s.disjointLemma (u.qualify m.name)

section

variable {s : Scope} {enclosing : List Scope} {earlier : List Lemma} {key : DeclKey}
  {script : Script} {l : Lemma}

/-- A lemma with a `MemberScript` is `Justified` after the lemmas about constants. -/
theorem MemberScript.justified (h : MemberScript s key script) (hscript : l.script = script)
    (hconsts : s.constMembers.lemmas ⊆ earlier) : Justified s enclosing earlier l := by
  cases h with
  | definition hl => exact justified_simpDef hscript hl
  | definitions hl hl' => exact justified_simpDefs hscript hl hl'
  | constant hm =>
    exact justified_constantScript hscript
      (hconsts (List.mem_map_of_mem (f := Prod.snd) (LemmaTable.mem_of_get? hm)))

/-- A lemma with a `LookupScript` is `Justified` after disjointness and the membership lemmas. -/
theorem LookupScript.justified (h : LookupScript s enclosing key script)
    (hscript : l.script = script) (hdisjoint : ∃ l ∈ earlier, l.name = disjointName)
    (hmembers : s.members.lemmas ⊆ earlier) : Justified s enclosing earlier l := by
  obtain ⟨u, hu, m, hm, rfl⟩ := h
  obtain ⟨disjoint, hmem, hname⟩ := hdisjoint
  have hm : m ∈ u.members.lemmas := List.mem_map_of_mem (f := Prod.snd) (LemmaTable.mem_of_get? hm)
  -- A membership lemma of this scope stands before; one of another scope stands around.
  have hmember : Available s enclosing earlier (.ofScope u m) := by
    obtain rfl | hu := List.mem_cons.1 hu
    · exact .here (hmembers hm)
    · exact .around hu (by simp [Scope.lemmas, hm])
  refine justified_given (.ofScope s disjoint) (.ofScope u m)
    (.simp [.library "lookup_var_ty_global_2", .library "lookup_var_ty_local"]) ?_
      (.here hmem) hmember ?_
  · rw [hscript, Scope.disjointLemma, ← hname]
    rfl
  · have hglobal : "lookup_var_ty_global_2" ∈ libraryFacts := by decide
    have hlocal : "lookup_var_ty_local" ∈ libraryFacts := by decide
    simp [Line.references, Available.library hglobal, Available.library hlocal]

end

/-- What the filed lemmas of a catalog rest on: each table has scripts of its kind. -/
structure Catalog.Grounded (c : Catalog) : Prop where
  constMembers : ∀ e ∈ c.scope.constMembers,
    e.2.script = Script.by ("(simp add: " ++ c.scope.consts ++ "_def)")
  members : ∀ e ∈ c.scope.members, MemberScript c.scope e.1 e.2.script
  lookups : ∀ e ∈ c.scope.lookups, LookupScript c.scope c.enclosing e.1 e.2.script

/-- `variableScript` of a constant rests on the lemma in `constMembers`. -/
private theorem variableScript_constant {s : Scope} {key : DeclKey} {script : Script}
    (h : Catalog.variableScript s .constant key = .ok script) :
    ∃ m, s.constMembers.get? key = some m ∧ script = constantScript m := by
  rw [Catalog.variableScript] at h
  cases hm : s.constMembers.get? key with
  | none =>
    rw [hm] at h
    cases h
  | some m =>
    rw [hm] at h
    exact ⟨m, rfl, (Except.ok.inj h).symm⟩

/-- `variableScript` is a `MemberScript`, for variables of every kind. -/
private theorem variableScript_eq_ok {s : Scope} {kind : VarKind} {key : DeclKey} {script : Script}
    (h : Catalog.variableScript s kind key = .ok script) : MemberScript s key script := by
  cases kind with
  | constant =>
    obtain ⟨m, hm, rfl⟩ := variableScript_constant h
    exact .constant hm
  | global | paramOrLocal =>
    obtain rfl := Except.ok.inj h
    exact .definitions (by simp [Catalog.listFor, Scope.definitions])
      (by simp [Catalog.listFor, Scope.definitions])

/-- A `MemberEntry` has a `MemberScript`. -/
theorem MemberEntry.script {s : Scope} {key : DeclKey} {l : Lemma} (h : MemberEntry s key l) :
    MemberScript s key l.script := by
  cases h with
  | function hheld => exact .definition (by simp [Scope.definitions])
  | axiomAt => exact .definition (by simp [Scope.definitions])
  | var hheld hscript => exact variableScript_eq_ok hscript

/-- A `LookupEntry` has a `LookupScript`. -/
theorem LookupEntry.script {s : Scope} {enclosing : List Scope} {key : DeclKey} {l : Lemma}
    (h : LookupEntry s enclosing key l) : LookupScript s enclosing key l.script := by
  cases h with
  | var hheld hmember =>
    obtain ⟨u, name, hu, hname, rfl⟩ := nearest_eq_ok_iff.1 hmember
    obtain ⟨m, hm, rfl⟩ := Option.map_eq_some_iff.1 hname
    exact ⟨u, List.mem_of_find?_eq_some hu, m, hm, rfl⟩

namespace Catalog

variable {c c' : Catalog}

/-- What a membership lemma rests on stays when a catalog is extended. -/
private theorem Extends.memberScript (h : Extends c c') {key : DeclKey} {script : Script}
    (hscript : MemberScript c.scope key script) : MemberScript c'.scope key script := by
  have hdefs : c'.scope.definitions = c.scope.definitions :=
    (congrArg Scope.definitions h.cleared :)
  cases hscript with
  | definition hl => exact .definition (hdefs ▸ hl)
  | definitions hl hl' => exact .definitions (hdefs ▸ hl) (hdefs ▸ hl')
  | constant hm => exact .constant (get?_of_extended h.constMembers hm)

/-- What a look-up lemma rests on stays when a catalog is extended. -/
theorem Extends.lookupScript (h : Extends c c') {key : DeclKey} {script : Script}
    (hscript : LookupScript c.scope c.enclosing key script) :
    LookupScript c'.scope c'.enclosing key script := by
  have hdisjoint : c'.scope.disjointLemma = c.scope.disjointLemma :=
    (congrArg Scope.disjointLemma h.cleared :)
  have htheory : c'.scope.theory = c.scope.theory := (congrArg Scope.theory h.cleared :)
  obtain ⟨u, hu, m, hm, rfl⟩ := hscript
  rw [LookupScript, h.enclosing, hdisjoint]
  -- The cited scope is the one that was extended, or one around it, which has not changed.
  obtain rfl | hu := List.mem_cons.1 hu
  · exact ⟨c'.scope, List.mem_cons_self, m, get?_of_extended h.members hm,
      by simp only [Scope.qualify, htheory]⟩
  · exact ⟨u, List.mem_cons_of_mem _ hu, m, hm, rfl⟩

/-- A single `Step` keeps a catalog `Grounded`. -/
theorem Step.grounded (h : Step c c') (hc : c.Grounded) : c'.Grounded := by
  have hextends := h.extends
  have hconsts : c'.scope.consts = c.scope.consts := (congrArg Scope.consts hextends.cleared :)
  have hmembers : ∀ e ∈ c.scope.members, MemberScript c'.scope e.1 e.2.script :=
    fun e he => hextends.memberScript (hc.members e he)
  have hlookups : ∀ e ∈ c.scope.lookups, LookupScript c'.scope c'.enclosing e.1 e.2.script :=
    fun e he => hextends.lookupScript (hc.lookups e he)
  have hconstMembers : ∀ e ∈ c.scope.constMembers,
      e.2.script = Script.by ("(simp add: " ++ c'.scope.consts ++ "_def)") :=
        hconsts ▸ hc.constMembers
  -- What was filed before rests on the same as before; one lemma may be new.
  cases h with
  | memberName | lookupName => exact ⟨hconstMembers, hmembers, hlookups⟩
  | member hnew hentry =>
    refine ⟨hconstMembers, List.forall_mem_append.2 ⟨hmembers, List.forall_mem_singleton.2 ?_⟩,
      hlookups⟩
    exact hextends.memberScript hentry.script
  | constMember hnew hentry =>
    refine ⟨List.forall_mem_append.2 ⟨hconstMembers, List.forall_mem_singleton.2 ?_⟩, hmembers,
      hlookups⟩
    cases hentry with
    | constant hheld => rfl
  | lookup hnew hentry =>
    refine ⟨hconstMembers, hmembers,
      List.forall_mem_append.2 ⟨hlookups, List.forall_mem_singleton.2 ?_⟩⟩
    exact hextends.lookupScript hentry.script

/-- So `Steps` keep a catalog `Grounded`. -/
theorem Steps.grounded (h : Steps c c') (hc : c.Grounded) : c'.Grounded := by
  induction h with
  | refl => exact hc
  | tail _ hstep ih => exact hstep.grounded ih

/-! ## Constants -/

/-- Every membership lemma that is new in `c'` since `c` cites the lemma about the same declaration
    in the list of constants. -/
def CitesConstants (c c' : Catalog) : Prop :=
  ∀ key l, c'.scope.members.get? key = some l → c.scope.members.get? key = none →
    ∃ m, c'.scope.constMembers.get? key = some m ∧ l.script = constantScript m

/-- New lemmas in `constMembers` and `lookups` do not matter for `CitesConstants`. -/
private theorem CitesConstants.of_members_eq {c₁ c₂ : Catalog} (h : CitesConstants c c₁)
    (hsteps : Steps c₁ c₂) (hmembers : c₂.scope.members = c₁.scope.members) :
    CitesConstants c c₂ := by
  intro key l hl hnone
  rw [hmembers] at hl
  obtain ⟨m, hm, hscript⟩ := h key l hl hnone
  exact ⟨m, get?_of_extended hsteps.extends.constMembers hm, hscript⟩

/-- `addConstant` leaves `members` as it is. -/
private theorem members_addConstant (c : Catalog) (v : Variable) :
    (c.addConstant v).2.scope.members = c.scope.members := by
  unfold addConstant
  cases Semantics.variableDecl v with
  | error e => rfl
  | ok decl =>
    rcases insert_cases c.scope.constMembers v.key _ _ _ with heq | ⟨_, heq⟩
    · exact congrArg (·.scope.members) heq
    · exact congrArg (·.scope.members) heq

/-- `addLookup` leaves `members` as it is. -/
private theorem members_addLookup (c : Catalog) (v : Variable) :
    (c.addLookup v).2.scope.members = c.scope.members := by
  unfold addLookup
  cases memberLemma c.chain v.key with
  | error e => rfl
  | ok member =>
    cases Semantics.variableDecl v with
    | error e => rfl
    | ok decl =>
      rcases insert_cases c.scope.lookups v.key _ _ _ with heq | ⟨_, heq⟩
      · exact congrArg (·.scope.members) heq
      · exact congrArg (·.scope.members) heq

/-- What `fileMember` does to a catalog, whether it is refused or not. -/
private theorem fileMember_cases (c : Catalog) (key : DeclKey) (lead preferred : String)
    (statement : Term) (script : Script) :
    let c' := (c.fileMember key lead preferred statement script).2
    c'.scope.constMembers = c.scope.constMembers ∧
      (c'.scope.members = c.scope.members ∨
        ∃ l, l.script = script ∧ c'.scope.members = c.scope.members ++ [(key, l)]) := by
  intro c'
  rcases insert_cases c.scope.members key _ _ _ with heq | ⟨_, heq⟩
  · exact ⟨congrArg (·.scope.constMembers) heq, .inl (congrArg (·.scope.members) heq)⟩
  · exact ⟨congrArg (·.scope.constMembers) heq, .inr ⟨_, rfl, congrArg (·.scope.members) heq⟩⟩

/-- `CitesConstants` is kept when a membership lemma is filed that cites a lemma about constants. -/
theorem CitesConstants.fileMember {c₁ : Catalog} (h : CitesConstants c c₁) {key : DeclKey}
    {m : Lemma} (hm : c₁.scope.constMembers.get? key = some m) (lead preferred : String)
    (statement : Term) :
    CitesConstants c (c₁.fileMember key lead preferred statement (constantScript m)).2 := by
  obtain ⟨hconsts, hmembers⟩ := c₁.fileMember_cases key lead preferred statement (constantScript m)
  intro key' l hl hnone
  rw [hconsts]
  obtain hmembers | ⟨new, hnew, hmembers⟩ := hmembers
  · rw [hmembers] at hl
    exact h key' l hl hnone
  · rw [hmembers, LemmaTable.get?, List.lookup_append] at hl
    cases hold : c₁.scope.members.lookup key' with
    | some l' =>
      rw [hold] at hl
      obtain rfl := Option.some.inj hl
      exact h key' l' hold hnone
    | none =>
      -- Only the lemma that was filed now is new.
      rw [hold, Option.none_or] at hl
      obtain ⟨rfl, rfl⟩ := Prod.mk.inj (List.mem_singleton.1 (LemmaTable.mem_of_get? hl))
      exact ⟨m, hm, hnew⟩

/-- `addVariable` of a constant keeps `CitesConstants`: its lemma cites the one about the list of
    constants. -/
theorem CitesConstants.addVariable {c₁ : Catalog} (h : CitesConstants c c₁) (v : Variable) :
    CitesConstants c (addVariable .constant c₁ v).2 := by
  unfold Catalog.addVariable
  cases Semantics.variableDecl v with
  | error e => exact h
  | ok decl =>
    cases hscript : variableScript c₁.scope .constant v.key with
    | error e => exact h
    | ok script =>
      obtain ⟨m, hm, rfl⟩ := variableScript_constant hscript
      exact h.fileMember hm _ _ _

/-- After `addVariables` of constants all new membership lemmas cite those about the list of
    constants. -/
private theorem addVariables_citesConstants (c : Catalog) (vars : List Variable) :
    CitesConstants c (c.addVariables vars .constant true).2 := by
  unfold addVariables
  refine attemptThen_preserves (CitesConstants c)
    (attemptThen_preserves (CitesConstants c) ?_ fun c₁ h₁ => ?_) fun c₂ h₂ => ?_
  · refine attemptEach_preserves addConstant (CitesConstants c) (fun c₁ v h => ?_) c vars
      fun key l hl hnone => ?_
    · -- The list of constants comes first, and does not touch the membership lemmas.
      exact h.of_members_eq (c₁.addConstant_steps v) (c₁.members_addConstant v)
    · rw [hnone] at hl
      cases hl
  · exact attemptEach_preserves (addVariable .constant) (CitesConstants c)
      (fun _ v h => h.addVariable v) c₁ vars h₁
  · exact attemptEach_preserves addLookup (CitesConstants c)
      (fun c₁ v h => h.of_members_eq (c₁.addLookup_steps v) (c₁.members_addLookup v)) c₂ vars h₂

end Catalog

/-! ## Chains of scopes -/

/-- Scopes that were made by `Catalog.create` inside each other, the innermost first, with what was
    registered in each. -/
inductive Built : List Scope → Prop where
  | nil : Built []
  | cons {config : Config} {names : ListNames} {globalIds localIds : List VarId}
      {enclosing : List Scope} {c : Catalog} (houter : Built enclosing)
      (hcreate : Catalog.create config names globalIds localIds enclosing = .ok c)
      (calls : List Catalog.Call) :
      Built ((c.run calls).2.scope :: enclosing)

/-- A catalog from `Catalog.create` is `Grounded`, as nothing is registered in it. -/
private theorem Catalog.grounded_of_create {config : Config} {names : ListNames}
    {globalIds localIds : List VarId} {enclosing : List Scope} {c : Catalog}
    (h : Catalog.create config names globalIds localIds enclosing = .ok c) : c.Grounded := by
  obtain ⟨hmembers, hconsts, hlookups, _⟩ := create_registered h
  exact ⟨by simp [hconsts], by simp [hmembers], by simp [hlookups]⟩

namespace Built

variable {s : Scope} {enclosing : List Scope}

/-- The scopes around a `Built` scope are `Built`. -/
theorem tail (h : Built (s :: enclosing)) : Built enclosing := by
  cases h with
  | cons houter _ _ => exact houter

/-- What the filed lemmas of a `Built` scope rest on (`Grounded`). -/
theorem grounded (h : Built (s :: enclosing)) : (⟨s, enclosing⟩ : Catalog).Grounded := by
  cases h with
  | @cons config names globalIds localIds _ c houter hcreate calls =>
    have hsteps := c.run_steps calls
    have henclosing : (c.run calls).2.enclosing = enclosing := by
      rw [hsteps.extends.enclosing]
      obtain ⟨_, _, _, _, _, rfl⟩ := Catalog.create_eq_ok hcreate
      rfl
    have hgrounded := hsteps.grounded (Catalog.grounded_of_create hcreate)
    rw [← henclosing]
    exact hgrounded

/-- The `helpers` of a `Built` scope, and what its disjointness rests on (`DisjointScript`). -/
theorem helpers (h : Built (s :: enclosing)) :
    ∃ low script, s.helpers = helperLemmas s low script ∧ DisjointScript s enclosing script := by
  cases h with
  | @cons config names globalIds localIds _ c houter hcreate calls =>
    have hcleared := (c.run_steps calls).extends.cleared
    obtain ⟨base, script, _, _, hsep, rfl⟩ := Catalog.create_eq_ok hcreate
    generalize (Catalog.run _ calls).2.scope = s at hcleared
    -- Registration has not changed what the helpers were made from.
    have hhelpers : s.helpers = helperLemmas base (localsBound base localIds) script :=
      (congrArg Scope.helpers hcleared :)
    have hsame : helperLemmas s (localsBound base localIds) script =
        helperLemmas base (localsBound base localIds) script :=
      (congrArg (helperLemmas · (localsBound base localIds) script) hcleared :)
    refine ⟨localsBound base localIds, script, hhelpers.trans hsame.symm, ?_⟩
    cases hsep with
    | noGlobals hgen hids =>
      have hunfold : unfoldDefs s.consts s.globals = unfoldDefs base.consts base.globals :=
        (congrArg (fun s : Scope => unfoldDefs s.consts s.globals) hcleared :)
      rw [← hunfold]
      exact .unfoldGlobals
    | noLocals hgen hids =>
      have hunfold : unfoldDefs s.params s.locals = unfoldDefs base.params base.locals :=
        (congrArg (fun s : Scope => unfoldDefs s.params s.locals) hcleared :)
      rw [← hunfold]
      exact .unfoldLocals
    | bounds globalsMax hlt hcite =>
      have hmin : base.localsMinLemma = s.localsMinLemma :=
        (congrArg Scope.localsMinLemma hcleared :).symm
      have hmax : globalsMaxLemma (s :: enclosing) = globalsMaxLemma (base :: enclosing) :=
        (congrArg (fun s : Scope => globalsMaxLemma (s :: enclosing)) hcleared :)
      obtain ⟨g, hg, rfl⟩ := nearest_flag_eq_ok_iff.1 (hmax.trans hcite)
      rw [hmin]
      exact .bounds g hg

/-- The lemma `disjointness?` of a `Built` scope, and what it rests on. -/
private theorem disjointness (h : Built (s :: enclosing)) :
    ∃ l, s.disjointness? = some l ∧ l.name = disjointName ∧
      DisjointScript s enclosing l.script := by
  obtain ⟨low, script, hhelpers, hscript⟩ := h.helpers
  have hfind := find?_disjointName s low script
  rw [← hhelpers] at hfind
  exact ⟨_, hfind, rfl, hscript⟩

/-- A `Built` scope that generates globals has the lemma `globalsMaxName` with the bound on their
    ids. -/
private theorem exists_globalsMax {chain : List Scope} (h : Built chain) {g : Scope}
    (hg : g ∈ chain) (hgen : g.generates.globals = true) :
    ∃ l ∈ g.lemmas, l.name = globalsMaxName := by
  induction h with
  | nil => cases hg
  | @cons config names globalIds localIds enclosing c houter hcreate calls ih =>
    obtain rfl | hg := List.mem_cons.1 hg
    · obtain ⟨low, script, hhelpers, _⟩ := (Built.cons houter hcreate calls).helpers
      obtain ⟨l, hl, hname⟩ := exists_boundLemma (c.run calls).2.scope .globals
        (c.run calls).2.scope.globalsBound
      refine ⟨l, ?_, hname⟩
      rw [Scope.lemmas, hhelpers, helperLemmas, if_pos hgen]
      simp [hl]
    · exact ih hg

/-- Every lemma of a `Built` scope is `Justified` by those before it. -/
private theorem justifiedFrom (h : Built (s :: enclosing)) :
    JustifiedFrom s enclosing [] s.lemmas := by
  obtain ⟨low, script, hhelpers, hscript⟩ := h.helpers
  have hgrounded := h.grounded
  rw [Scope.lemmas, justifiedFrom_append, justifiedFrom_append, justifiedFrom_append]
  -- Table by table, in the order in which `Scope.lemmas` lists them.
  refine ⟨⟨⟨?_, justifiedFrom_of_forall ?_⟩, justifiedFrom_of_forall ?_⟩,
    justifiedFrom_of_forall ?_⟩
  · rw [hhelpers]
    exact justified_helperLemmas hscript fun g hg hgen => h.tail.exists_globalsMax hg hgen
  · intro l hl
    obtain ⟨e, he, rfl⟩ := List.mem_map.1 hl
    exact justified_simpDef (hgrounded.constMembers e he) (by simp [Scope.definitions])
  · intro l hl
    obtain ⟨e, he, rfl⟩ := List.mem_map.1 hl
    exact (hgrounded.members e he).justified rfl (List.subset_append_right _ _)
  · intro l hl
    obtain ⟨e, he, rfl⟩ := List.mem_map.1 hl
    refine (hgrounded.lookups e he).justified rfl ?_ (List.subset_append_right _ _)
    obtain ⟨disjoint, hdisjoint, hname, _⟩ := h.disjointness
    refine ⟨disjoint, ?_, hname⟩
    simp [List.mem_of_find?_eq_some hdisjoint]

end Built

/-- In every chain of scopes that is `Built`, whatever was registered in each and wherever calls
    have stopped, a lemma names only definitions, facts of the library and lemmas that stand before
    it or in a scope around (`Justified`).  A look-up lemma starts from this scope's disjointness
    and the membership of the same declaration here or in a scope around, which therefore exists.
    The membership of a constant cites the lemma about this constant in the list of constants.
    Disjointness, if it does not follow from definitions, cites this scope's bound on locals and the
    bound on globals of the nearest scope that generates them. -/
theorem citations_resolve {s : Scope} {enclosing : List Scope} (h : Built (s :: enclosing)) :
    (∀ earlier l later, s.lemmas = earlier ++ l :: later → Justified s enclosing earlier l) ∧
    (∀ key l, s.lookups.get? key = some l → ∃ u ∈ s :: enclosing, ∃ m, u.members.get? key = some m ∧
      l.script.head? = some ("using " ++ s.qualify "globals_locals_disj" ++ " " ++
        u.qualify m.name)) ∧
    (∀ vars, Catalog.CitesConstants ⟨s, enclosing⟩
      (Catalog.addVariables ⟨s, enclosing⟩ vars .constant true).2) ∧
    ∃ l, s.disjointness? = some l ∧
      (l.script = ["unfolding " ++ s.consts ++ "_def " ++ s.globals ++ "_def", "by simp"] ∨
        l.script = ["unfolding " ++ s.params ++ "_def " ++ s.locals ++ "_def", "by simp"] ∨
        ∃ g, (s :: enclosing).find? (·.generates.globals) = some g ∧
          l.script = ["using " ++ s.qualify "locals_min" ++ " " ++ g.qualify "globals_max",
            "by fastforce"]) := by
  refine ⟨fun earlier l later hsplit => ?_, fun key l hl => ?_,
    fun vars => Catalog.addVariables_citesConstants _ vars, ?_⟩
  · have hall := h.justifiedFrom
    rw [hsplit] at hall
    exact hall.justified
  · obtain ⟨u, hu, m, hm, hscript⟩ := h.grounded.lookups (key, l) (LemmaTable.mem_of_get? hl)
    have hscript : l.script = lookupScript s.disjointLemma (u.qualify m.name) := hscript
    refine ⟨u, hu, m, hm, ?_⟩
    rw [hscript]
    rfl
  · -- Disjointness has one of three scripts, whatever was registered since.
    obtain ⟨l, hl, _, hscript⟩ := h.disjointness
    refine ⟨l, hl, ?_⟩
    generalize l.script = script at hscript
    cases hscript with
    | unfoldGlobals => exact .inl rfl
    | unfoldLocals => exact .inr (.inl rfl)
    | bounds g hg => exact .inr (.inr ⟨g, hg, rfl⟩)

/-- Calls about a constant and a global.  The second call stops at an id that was registered before,
    so there is no look-up lemma of the global. -/
def programCalls : List Catalog.Call :=
  [.vars [⟨"c", .int, 1⟩] .constant true, .vars [⟨"g", .int, 2⟩, ⟨"h", .int, 1⟩] .global true]

/-- Calls about the types of a local and, from the scope around, of a constant and a global. -/
def procedureCalls : List Catalog.Call :=
  [.vars [⟨"x", .int, 7⟩] .paramOrLocal true, .vars [⟨"c", .int, 1⟩] .constant false,
    .lookups [⟨"g", .int, 2⟩]]

/-- The last lemma after `procedureCalls` is `Justified` by those before, and rests on a lemma of
    the program's scope. -/
theorem citations_resolve_procedure :
    ∃ program procedure, Catalog.create { theory := "program" } {} [1, 2] [] [] = .ok program ∧
      Catalog.create (Config.forProcedure {} "proc") {} [1, 2] [7]
        [(program.run programCalls).2.scope] = .ok procedure ∧
      ∃ earlier l, (procedure.run procedureCalls).2.scope.lemmas = earlier ++ [l] ∧
        Justified (procedure.run procedureCalls).2.scope [(program.run programCalls).2.scope]
          earlier l ∧
        l.script.head? = some "using proc.globals_locals_disj program.m_g" := by
  obtain ⟨program, hprogram⟩ :
      ∃ c, Catalog.create { theory := "program" } {} [1, 2] [] [] = .ok c :=
    ⟨_, rfl⟩
  obtain ⟨procedure, hprocedure⟩ : ∃ c, Catalog.create (Config.forProcedure {} "proc") {} [1, 2] [7]
      [(program.run programCalls).2.scope] = .ok c := by
    obtain rfl := Except.ok.inj hprogram
    exact ⟨_, rfl⟩
  obtain ⟨hall, hlookup, _, _⟩ :=
    citations_resolve (.cons (.cons .nil hprogram programCalls) hprocedure procedureCalls)
  -- The global is known in the scope of the program only.
  have hown : (procedure.run procedureCalls).2.scope.members.get? (.variable 2) = none := by
    obtain rfl := Except.ok.inj hprogram
    obtain rfl := Except.ok.inj hprocedure
    rfl
  have hmember : (((program.run programCalls).2.scope.members.get? (.variable 2)).map fun m =>
      (program.run programCalls).2.scope.qualify m.name) = some "program.m_g" := by
    obtain rfl := Except.ok.inj hprogram
    rfl
  have hlast : (procedure.run procedureCalls).2.scope.lemmas.getLast? =
        (procedure.run procedureCalls).2.scope.lookups.get? (.variable 2) ∧
      ((procedure.run procedureCalls).2.scope.lookups.get? (.variable 2)).isSome ∧
      (procedure.run procedureCalls).2.scope.qualify "globals_locals_disj" =
        "proc.globals_locals_disj" := by
    obtain rfl := Except.ok.inj hprogram
    obtain rfl := Except.ok.inj hprocedure
    exact ⟨rfl, rfl, rfl⟩
  obtain ⟨hlast, hsome, hdisjoint⟩ := hlast
  obtain ⟨l, hl⟩ := Option.isSome_iff_exists.1 hsome
  obtain ⟨earlier, hlemmas⟩ := List.getLast?_eq_some_iff.1 (hlast.trans hl)
  obtain ⟨u, hu, m, hm, hhead⟩ := hlookup _ l hl
  refine ⟨program, procedure, hprogram, hprocedure, earlier, l, hlemmas, hall earlier l [] hlemmas,
    ?_⟩
  rw [hhead, hdisjoint]
  obtain rfl | hu := List.mem_cons.1 hu
  · rw [hown] at hm
    cases hm
  · obtain rfl := List.mem_singleton.1 hu
    rw [hm] at hmember
    have hname : (program.run programCalls).2.scope.qualify m.name = "program.m_g" :=
      Option.some.inj hmember
    rw [hname]
    rfl

end Warrant
