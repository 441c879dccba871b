import Warrant.Proofs.TypeTerms
import Warrant.Scope.Registration

/-!
# When declarations can be registered

What a catalog has filed are the keys of its lemmas, in three tables (`Filed`).  Registering a
declaration succeeds depending on its types and on these keys alone, and adds its key.  So the loops
of the registration succeed exactly if the types are in order and no key comes up twice
(`addProgram_outcome`).
-/

namespace Warrant

/-- The keys under which a catalog has filed lemmas, and what it cites besides. -/
structure Filed where
  generates : Groups
  enclosing : List Scope
  members : List DeclKey := []
  constMembers : List DeclKey := []
  lookups : List DeclKey := []

namespace Filed

/-- The keys of membership lemmas, as a `KeyLog`. -/
def memberLog : KeyLog Filed DeclKey where
  keys := members
  add v ks := { v with members := v.members ++ ks }
  keys_add _ _ := rfl
  add_nil v := by simp
  add_add v ks ks' := by simp

/-- The keys of lemmas about the list of constants, as a `KeyLog`. -/
def constMemberLog : KeyLog Filed DeclKey where
  keys := constMembers
  add v ks := { v with constMembers := v.constMembers ++ ks }
  keys_add _ _ := rfl
  add_nil v := by simp
  add_add v ks ks' := by simp

/-- The keys of look-up lemmas, as a `KeyLog`. -/
def lookupLog : KeyLog Filed DeclKey where
  keys := lookups
  add v ks := { v with lookups := v.lookups ++ ks }
  keys_add _ _ := rfl
  add_nil v := by simp
  add_add v ks ks' := by simp

end Filed

/-- What the scope of a catalog has `Filed`. -/
def Catalog.filed (c : Catalog) : Filed where
  generates := c.scope.generates
  enclosing := c.enclosing
  members := c.scope.members.map Prod.fst
  constMembers := c.scope.constMembers.map Prod.fst
  lookups := c.scope.lookups.map Prod.fst

/-- `LemmaTable.get?` finds a lemma for the keys of the table. -/
theorem LemmaTable.get?_isSome_iff {t : LemmaTable} {key : DeclKey} :
    (t.get? key).isSome ↔ key ∈ t.map Prod.fst :=
  lookup_isSome_iff_mem

/-- `LemmaTable.insert` files a lemma under a key that has none. -/
theorem LemmaTable.insert_eq (t : LemmaTable) (key : DeclKey) (l : Lemma) :
    t.insert key l =
      if key ∈ t.map Prod.fst then .error (.duplicateMembership key)
      else .ok (t ++ [(key, l)]) := by
  rw [insert]
  simp only [get?_isSome_iff]

/-- `memberLemma` succeeds if this scope has filed the key or it succeeds for the scopes around. -/
theorem memberLemma_cons_succeeds_iff (s : Scope) (outer : List Scope) (key : DeclKey) :
    Succeeds (memberLemma (s :: outer) key) ↔
      key ∈ s.members.map Prod.fst ∨ Succeeds (memberLemma outer key) := by
  rw [memberLemma, nearest, ← LemmaTable.get?_isSome_iff]
  cases s.members.get? key with
  | some l => exact iff_of_true (succeeds_ok _) (.inl rfl)
  | none => exact ⟨.inr, fun h => h.resolve_left Bool.false_ne_true⟩

namespace Catalog

open Filed (memberLog constMemberLog lookupLog)

/-! ## Filing one lemma -/

/-- An attempt that files a lemma by `LemmaTable.insert` succeeds if its key has none. -/
private theorem insert_outcome {t : LemmaTable} {key : DeclKey} {l : Lemma}
    {update : LemmaTable → Catalog} {c : Catalog} {next : Filed}
    (hnext : (update (t ++ [(key, l)])).filed = next) :
    Outcome filed
      (match t.insert key l with | .ok t => (.ok (), update t) | .error e => (.error e, c))
      (key ∉ t.map Prod.fst) next := by
  rw [LemmaTable.insert_eq]
  by_cases h : key ∈ t.map Prod.fst
  · rw [if_pos h]
    exact .failure (not_not_intro h)
  · rw [if_neg h]
    exact ⟨iff_of_true rfl h, fun _ => hnext⟩

section

variable (c : Catalog) (key : DeclKey) (lead preferred : String) (statement : Term)
  (script : Script)

/-- `fileMember` succeeds if the key has no membership lemma. -/
private theorem fileMember_outcome :
    Outcome filed (c.fileMember key lead preferred statement script) (key ∉ c.filed.members)
      (memberLog.add c.filed [key]) :=
  insert_outcome (by simp [filed, withScope, memberLog])

/-- `fileConstMember` succeeds if the key has no lemma about the list of constants. -/
private theorem fileConstMember_outcome :
    Outcome filed (c.fileConstMember key preferred statement script) (key ∉ c.filed.constMembers)
      (constMemberLog.add c.filed [key]) :=
  insert_outcome (by simp [filed, withScope, constMemberLog])

/-- `fileLookup` succeeds if the key has no look-up lemma. -/
private theorem fileLookup_outcome :
    Outcome filed (c.fileLookup key preferred statement script) (key ∉ c.filed.lookups)
      (lookupLog.add c.filed [key]) :=
  insert_outcome (by simp [filed, withScope, lookupLog])

end

/-! ## Registering one declaration -/

section

variable (c : Catalog)

/-- `addFunction` succeeds for a `Scoped` function with a new key. -/
private theorem addFunction_outcome (f : Function) :
    Outcome filed (c.addFunction f) (f.Scoped ∧ f.key ∉ c.filed.members)
      (memberLog.add c.filed [f.key]) := by
  refine .check (Semantics.functionDecl_succeeds_iff f)
    (fun e he => by simp only [addFunction, he]) fun decl hdecl => ?_
  simp only [addFunction, hdecl]
  exact c.fileMember_outcome ..

/-- `addAxiom` succeeds for an axiom with a new key. -/
private theorem addAxiom_outcome (a : SourceAxiom) :
    Outcome filed (c.addAxiom a) (a.key ∉ c.filed.members)
      (memberLog.add c.filed [a.key]) :=
  insert_outcome (by simp [filed, withScope, memberLog])

/-- `addConstant` succeeds for a `Closed` variable with a new key. -/
private theorem addConstant_outcome (v : Variable) :
    Outcome filed (c.addConstant v) (v.Closed ∧ v.key ∉ c.filed.constMembers)
      (constMemberLog.add c.filed [v.key]) := by
  refine .check (Semantics.variableDecl_succeeds_iff v)
    (fun e he => by simp only [addConstant, he]) fun decl hdecl => ?_
  simp only [addConstant, hdecl]
  exact c.fileConstMember_outcome ..

/-- `variableScript` of a constant needs the lemma about the list of constants. -/
private theorem variableScript_succeeds_iff (s : Scope) (kind : VarKind) (key : DeclKey) :
    Succeeds (variableScript s kind key) ↔
      (kind = .constant → key ∈ s.constMembers.map Prod.fst) := by
  cases kind with
  | constant =>
    rw [variableScript, ← LemmaTable.get?_isSome_iff]
    cases s.constMembers.get? key with
    | some l => exact iff_of_true (succeeds_ok _) fun _ => rfl
    | none => exact iff_of_false (not_succeeds_error _) fun h => nomatch h rfl
  | global | paramOrLocal => exact iff_of_true ⟨_, rfl⟩ fun h => nomatch h

/-- `addVariable` succeeds for a `Closed` variable with a new key; a constant has to be filed as
    such before. -/
private theorem addVariable_outcome (kind : VarKind) (v : Variable) :
    Outcome filed (addVariable kind c v)
      ((v.Closed ∧ (kind = .constant → v.key ∈ c.filed.constMembers)) ∧ v.key ∉ c.filed.members)
      (memberLog.add c.filed [v.key]) := by
  refine Outcome.congr (.check (Semantics.variableDecl_succeeds_iff v)
    (fun e he => by simp only [addVariable, he]) fun decl hdecl => ?_) and_assoc.symm
  refine .check (variableScript_succeeds_iff c.scope kind v.key)
    (fun e he => by simp only [addVariable, hdecl, he]) fun script hscript => ?_
  simp only [addVariable, hdecl, hscript]
  exact c.fileMember_outcome ..

/-- `addLookup` succeeds for a `Closed` variable with a new key whose membership can be cited. -/
private theorem addLookup_outcome (v : Variable) :
    Outcome filed (c.addLookup v)
      (((v.key ∈ c.filed.members ∨ Succeeds (memberLemma c.filed.enclosing v.key)) ∧ v.Closed) ∧
        v.key ∉ c.filed.lookups)
      (lookupLog.add c.filed [v.key]) := by
  refine Outcome.congr (.check (memberLemma_cons_succeeds_iff c.scope c.enclosing v.key)
    (fun e he => by simp only [addLookup, chain, he]) fun member hmember => ?_) and_assoc.symm
  refine .check (Semantics.variableDecl_succeeds_iff v)
    (fun e he => by simp only [addLookup, chain, hmember, he]) fun decl hdecl => ?_
  simp only [addLookup, chain, hmember, hdecl]
  exact c.fileLookup_outcome ..

/-! ## Registering a group of declarations -/

variable {c} {v : Filed}

/-- `addFunctions` succeeds if all functions are `Scoped` and their keys are new. -/
private theorem addFunctions_outcome (hv : c.filed = v) (hgen : v.generates.functions = true)
    (hmembers : v.members.Nodup) (functions : List Function) :
    Outcome filed (c.addFunctions functions)
      ((∀ f ∈ functions, f.Scoped) ∧ (v.members ++ functions.map Function.key).Nodup)
      (memberLog.add v (functions.map Function.key)) := by
  subst hv
  rw [addFunctions, if_pos (show c.scope.generates.functions = true from hgen)]
  exact .each memberLog Function.key (fun _ f => f.Scoped) (fun _ _ _ => Iff.rfl)
    addFunction_outcome c functions hmembers

/-- `addAxioms` succeeds if the keys of all axioms are new. -/
private theorem addAxioms_outcome (hv : c.filed = v) (hgen : v.generates.axioms = true)
    (hmembers : v.members.Nodup) (axioms : List SourceAxiom) :
    Outcome filed (c.addAxioms axioms) (v.members ++ axioms.map SourceAxiom.key).Nodup
      (memberLog.add v (axioms.map SourceAxiom.key)) := by
  subst hv
  rw [addAxioms, if_pos (show c.scope.generates.axioms = true from hgen)]
  have hstep (c : Catalog) (a : SourceAxiom) :
      Outcome filed (c.addAxiom a) (True ∧ a.key ∉ memberLog.keys c.filed)
        (memberLog.add c.filed [a.key]) :=
    (c.addAxiom_outcome a).congr (iff_of_eq (true_and _).symm)
  have hloop := Outcome.each memberLog SourceAxiom.key (fun _ _ => True) (fun _ _ _ => Iff.rfl)
    hstep c axioms hmembers
  exact hloop.congr (and_iff_right fun _ _ => trivial)

/-- The keys after the constants of some variables were filed, with `addConstant`. -/
def withConstants (v : Filed) (kind : VarKind) (keys : List DeclKey) : Filed :=
  if kind = .constant then constMemberLog.add v keys else v

/-- `withConstants` does not change the keys of membership lemmas. -/
private theorem withConstants_members (v : Filed) (kind : VarKind) (keys : List DeclKey) :
    (withConstants v kind keys).members = v.members := by
  unfold withConstants
  split <;> rfl

/-- `withConstants` does not change the keys of look-up lemmas. -/
private theorem withConstants_lookups (v : Filed) (kind : VarKind) (keys : List DeclKey) :
    (withConstants v kind keys).lookups = v.lookups := by
  unfold withConstants
  split <;> rfl

/-- `addConstant` for each of several constants succeeds if all are `Closed` and their keys are new;
    other variables are passed over. -/
private theorem addConstants_outcome (hv : c.filed = v) (kind : VarKind) (vars : List Variable)
    (hconsts : v.constMembers.Nodup) :
    Outcome filed (if true && kind = .constant then attemptEach addConstant c vars else (.ok (), c))
      (kind = .constant → (∀ v ∈ vars, v.Closed) ∧ (v.constMembers ++ vars.map Variable.key).Nodup)
      (withConstants v kind (vars.map Variable.key)) := by
  subst hv
  by_cases hkind : kind = .constant
  · have hloop := Outcome.each constMemberLog Variable.key (fun _ v => v.Closed)
      (fun _ _ _ => Iff.rfl) addConstant_outcome c vars hconsts
    rw [withConstants, if_pos hkind, if_pos (by simpa using hkind)]
    exact hloop.congr ⟨fun h _ => h, fun h => h hkind⟩
  · rw [withConstants, if_neg hkind, if_neg (by simpa using hkind)]
    exact (Outcome.skip c).congr (iff_of_true trivial fun h => absurd h hkind)

/-- `addVariables` succeeds if all variables are `Closed` and their keys are new in every table. -/
private theorem addVariables_outcome (hv : c.filed = v) (kind : VarKind) (vars : List Variable)
    (hmembers : v.members.Nodup) (hconsts : v.constMembers.Nodup) (hlookups : v.lookups.Nodup) :
    Outcome filed (c.addVariables vars kind true)
      ((∀ v ∈ vars, v.Closed) ∧
        (kind = .constant → (v.constMembers ++ vars.map Variable.key).Nodup) ∧
        (v.members ++ vars.map Variable.key).Nodup ∧ (v.lookups ++ vars.map Variable.key).Nodup)
      (lookupLog.add
        (memberLog.add (withConstants v kind (vars.map Variable.key)) (vars.map Variable.key))
        (vars.map Variable.key)) := by
  have hmembers' : (withConstants v kind (vars.map Variable.key)).members.Nodup := by
    rwa [withConstants_members]
  have hlookups' : (withConstants v kind (vars.map Variable.key)).lookups.Nodup := by
    rwa [withConstants_lookups]
  -- The membership lemmas, after the lemmas about constants.
  have hmember (s : Catalog) (hs : s.filed = withConstants v kind (vars.map Variable.key)) :=
    Outcome.each memberLog Variable.key
      (fun v var => var.Closed ∧ (kind = .constant → var.key ∈ v.constMembers))
      (fun _ _ _ => Iff.rfl) (fun c v => c.addVariable_outcome kind v) s vars
      (by rw [hs]; exact hmembers')
  -- The look-up lemmas, after the membership lemmas.
  have hlookup (s : Catalog)
      (hs : s.filed = memberLog.add (withConstants v kind (vars.map Variable.key))
        (vars.map Variable.key)) :=
    Outcome.each lookupLog Variable.key
      (fun v var => (var.key ∈ v.members ∨ Succeeds (memberLemma v.enclosing var.key)) ∧ var.Closed)
      (fun _ _ _ => Iff.rfl) addLookup_outcome s vars (by rw [hs]; exact hlookups')
  have hall := ((addConstants_outcome hv kind vars hconsts).andThen
    fun s _ hs => hs ▸ hmember s hs).andThen fun s _ hs => hs ▸ hlookup s hs
  refine Outcome.congr hall ?_
  have hkey : ∀ v ∈ vars, v.key ∈ vars.map Variable.key := fun v hv => List.mem_map_of_mem hv
  -- The conditions on keys that were filed on the way hold by themselves: a constant is filed
  -- before its membership is, and a variable before its type is looked up.
  constructor
  · rintro ⟨⟨hc, hm, hmn⟩, hl, hln⟩
    refine ⟨fun v hv => (hm v hv).1, fun hkind => (hc hkind).2, ?_, ?_⟩
    · rwa [← withConstants_members v kind (vars.map Variable.key)]
    · rwa [← withConstants_lookups v kind (vars.map Variable.key)]
  · rintro ⟨hclosed, hc, hm, hl⟩
    refine ⟨⟨fun hkind => ⟨hclosed, hc hkind⟩, fun v hv => ⟨hclosed v hv, fun hkind => ?_⟩, ?_⟩,
      fun v hv => ⟨.inl (List.mem_append_right _ (hkey v hv)), hclosed v hv⟩, ?_⟩
    · -- Every constant was filed before.
      rw [withConstants, if_pos hkind]
      exact List.mem_append_right _ (hkey v hv)
    · rwa [← withConstants_members v kind (vars.map Variable.key)] at hm
    · rwa [← withConstants_lookups v kind (vars.map Variable.key)] at hl

end

end Catalog

/-! ## Registering a program -/

namespace Program

/-- All variables of a program, `constsAndGlobals` first. -/
def allVariables (p : Program) : List Variable := p.constsAndGlobals ++ p.paramsAndLocals

/-- The keys of all declarations of a program, in the order in which `addProgram` registers them. -/
def keys (p : Program) : List DeclKey :=
  p.functions.map Function.key ++ p.axioms.map SourceAxiom.key ++ p.constants.map Variable.key ++
    p.globals.map Variable.key ++ p.paramsAndLocals.map Variable.key

/-- The keys of all variables of a program, the last of its `keys`. -/
def variableKeys (p : Program) : List DeclKey :=
  p.constants.map Variable.key ++ p.globals.map Variable.key ++ p.paramsAndLocals.map Variable.key

/-- `Program.keys` are those of functions, axioms and variables. -/
private theorem keys_eq (p : Program) :
    p.keys = p.functions.map Function.key ++ p.axioms.map SourceAxiom.key ++ p.variableKeys := by
  simp only [keys, variableKeys, List.append_assoc]

/-- `variableKeys` are the keys of `allVariables`. -/
private theorem variableKeys_eq (p : Program) :
    p.variableKeys = p.allVariables.map Variable.key := by
  simp only [variableKeys, allVariables, constsAndGlobals, List.map_append]

/-- `Program.keys` has no key twice if declarations of a kind differ in what they are filed
    under. -/
theorem keys_nodup_iff (p : Program) :
    p.keys.Nodup ↔ (p.functions.map Function.name).Nodup ∧ (p.axioms.map SourceAxiom.index).Nodup ∧
      (p.allVariables.map Variable.id).Nodup := by
  -- Keys of different kinds differ.
  have hkinds : ∀ k ∈ p.functions.map Function.key ++ p.axioms.map SourceAxiom.key,
      ∀ j ∈ p.allVariables.map Variable.key, k ≠ j := by
    simp only [List.mem_append, List.mem_map]
    rintro _ (⟨f, _, rfl⟩ | ⟨a, _, rfl⟩) _ ⟨v, _, rfl⟩ <;> exact fun h => nomatch h
  have hkinds' : ∀ k ∈ p.functions.map Function.key, ∀ j ∈ p.axioms.map SourceAxiom.key, k ≠ j := by
    simp only [List.mem_map]
    rintro _ ⟨f, _, rfl⟩ _ ⟨a, _, rfl⟩ h
    cases h
  rw [keys_eq, variableKeys_eq, List.nodup_append, List.nodup_append, and_iff_left hkinds,
    and_iff_left hkinds', and_assoc]
  simp only [List.Nodup, List.pairwise_map, Function.key, SourceAxiom.key, Variable.key, ne_eq,
    DeclKey.function.injEq, DeclKey.axiomAt.injEq, DeclKey.variable.injEq]

end Program

/-- `addProgram` in a new catalog that generates everything succeeds exactly if the types of
    functions and variables are in order and no key comes up twice.  Then all its keys have
    membership lemmas. -/
theorem Catalog.addProgram_outcome {c : Catalog} {enclosing : List Scope}
    (hc : c.filed = { generates := {}, enclosing }) (p : Program) :
    Outcome filed (c.addProgram p)
      ((∀ f ∈ p.functions, f.Scoped) ∧ (∀ v ∈ p.allVariables, v.Closed) ∧ p.keys.Nodup)
      { generates := {}, enclosing, members := p.keys, constMembers := p.constants.map Variable.key,
        lookups := p.variableKeys } := by
  have hgen : c.scope.generates = {} := congrArg Filed.generates hc
  -- Each group starts with the keys that the groups before it have filed.
  have hsteps := (addFunctions_outcome hc rfl .nil p.functions).andThen fun c₁ ok₁ hc₁ =>
    (addAxioms_outcome hc₁ rfl ok₁.2 p.axioms).andThen fun c₂ ok₂ hc₂ =>
    (addVariables_outcome hc₂ .constant p.constants ok₂ .nil .nil).andThen fun c₃ ok₃ hc₃ =>
    (addVariables_outcome hc₃ .global p.globals ok₃.2.2.1 (ok₃.2.1 rfl) ok₃.2.2.2).andThen
      fun c₄ ok₄ hc₄ =>
    addVariables_outcome hc₄ .paramOrLocal p.paramsAndLocals ok₄.2.2.1 (ok₃.2.1 rfl) ok₄.2.2.2
  unfold addProgram
  rw [hgen]
  refine Outcome.congr hsteps ?_
  constructor
  · rintro ⟨⟨hfunctions, _⟩, _, ⟨hconstants, _⟩, ⟨hglobals, _⟩, hlocals, _, hkeys, _⟩
    refine ⟨hfunctions, fun v hv => ?_, hkeys⟩
    simp only [Program.allVariables, Program.constsAndGlobals, List.mem_append] at hv
    rcases hv with (hv | hv) | hv
    · exact hconstants v hv
    · exact hglobals v hv
    · exact hlocals v hv
  · rintro ⟨hfunctions, hvariables, hkeys⟩
    simp only [Program.allVariables, Program.constsAndGlobals, List.forall_mem_append] at hvariables
    -- What has no duplicates has none in any part.
    have hglobals := (List.nodup_append.1 hkeys).1
    have hconstants := (List.nodup_append.1 hglobals).1
    have haxioms := (List.nodup_append.1 hconstants).1
    have hlookups : p.variableKeys.Nodup := (List.nodup_append.1 (p.keys_eq ▸ hkeys)).2.1
    have hlookupGlobals := (List.nodup_append.1 hlookups).1
    have hlookupConstants := (List.nodup_append.1 hlookupGlobals).1
    exact ⟨⟨hfunctions, (List.nodup_append.1 haxioms).1⟩, haxioms,
      ⟨hvariables.1.1, fun _ => hlookupConstants, hconstants, hlookupConstants⟩,
      ⟨hvariables.1.2, (fun h => nomatch h), hglobals, hlookupGlobals⟩,
      hvariables.2, (fun h => nomatch h), hkeys, hlookups⟩

end Warrant
