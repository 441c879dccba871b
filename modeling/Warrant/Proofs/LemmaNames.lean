import Mathlib.Data.List.Nodup
import Warrant.Proofs.FilingSteps

/-!
# Names of lemmas

The name of a filed lemma starts with a lead that tells its table and the kind of its declaration,
and goes on with what tells the declaration: the name that the declaration holds in a supply, or the
index of an axiom.  Different declarations hold different names, so different lemmas have different
names (`WellNamed.nodup_names`), whatever was registered and wherever calls have stopped.

* `Apart`: leads that no two equal names can have.
* `WellNamed`: the names of a scope; `Step.wellNamed` keeps it.
* `lemma_names_unique`: names and keys are unique, and a lemma that was filed is the one that is
  cited from then on.
-/

namespace Warrant

/-! ## Leads -/

/-- Neither of the leads `a` and `b` continues the other. -/
def Apart (a b : String) : Prop := ¬a.toList <+: b.toList ∧ ¬b.toList <+: a.toList

instance (a b : String) : Decidable (Apart a b) := inferInstanceAs (Decidable (_ ∧ _))

/-- Texts with leads that are `Apart` are different. -/
theorem Apart.append_ne {a b : String} (h : Apart a b) (x y : String) : a ++ x ≠ b ++ y := by
  intro heq
  have hlists : a.toList ++ x.toList = b.toList ++ y.toList := by
    rw [← String.toList_append, ← String.toList_append, heq]
  have ha : a.toList <+: b.toList ++ y.toList := hlists ▸ List.prefix_append _ _
  rcases List.prefix_or_prefix_of_prefix ha (List.prefix_append _ _) with hab | hba
  · exact h.1 hab
  · exact h.2 hba

/-- A text with a lead is not one that is `Apart` from the lead. -/
theorem Apart.append_ne_self {a b : String} (h : Apart a b) (x : String) : a ++ x ≠ b := by
  have hne := h.append_ne x ""
  rwa [String.append_empty] at hne

/-- Neither of the texts `a` and `b` is an end of the other. -/
def ApartAtEnd (a b : String) : Prop := ¬a.toList <:+ b.toList ∧ ¬b.toList <:+ a.toList

instance (a b : String) : Decidable (ApartAtEnd a b) := inferInstanceAs (Decidable (_ ∧ _))

/-- Texts with ends that are `ApartAtEnd` are different. -/
theorem ApartAtEnd.append_ne {a b : String} (h : ApartAtEnd a b) (x y : String) :
    x ++ a ≠ y ++ b := by
  intro heq
  have hlists : x.toList ++ a.toList = y.toList ++ b.toList := by
    rw [← String.toList_append, ← String.toList_append, heq]
  have ha : a.toList <:+ y.toList ++ b.toList := hlists ▸ List.suffix_append _ _
  rcases List.suffix_or_suffix_of_suffix ha (List.suffix_append _ _) with hab | hba
  · exact h.1 hab
  · exact h.2 hba

/-- The name `n` starts with one of the `leads`. -/
def Led (leads : List String) (n : String) : Prop := ∃ lead ∈ leads, ∃ rest, n = lead ++ rest

/-- Every one of the leads is `Led` by itself. -/
theorem led_of_mem {leads : List String} {n : String} (h : n ∈ leads) : Led leads n :=
  ⟨n, h, "", String.append_empty.symm⟩

/-- A name stays `Led` with more leads. -/
theorem Led.mono {leads leads' : List String} {n : String} (h : Led leads n)
    (hsub : leads ⊆ leads') : Led leads' n := by
  obtain ⟨lead, hlead, rest⟩ := h
  exact ⟨lead, hsub hlead, rest⟩

/-- Names are different if all their leads are `Apart`. -/
theorem Led.ne {leads leads' : List String} {n n' : String} (h : Led leads n) (h' : Led leads' n')
    (hapart : ∀ lead ∈ leads, ∀ lead' ∈ leads', Apart lead lead') : n ≠ n' := by
  obtain ⟨lead, hlead, rest, rfl⟩ := h
  obtain ⟨lead', hlead', rest', rfl⟩ := h'
  exact (hapart lead hlead lead' hlead').append_ne rest rest'

/-! ## Names of membership lemmas -/

/-- What the name of the membership lemma of a declaration starts with, by the kind of its
    `DeclKey`. -/
def memberLead : DeclKey → String
  | .function _ => "mfun_"
  | .variable _ => "m_"
  | .axiomAt _ => "ma_"

/-- What the name of the membership lemma of a declaration goes on with: the name that `supply`
    holds, or the index of an axiom. -/
def memberRest? (supply : NameSupply DeclKey) : DeclKey → Option String
  | .axiomAt index => some (toString index)
  | key => supply.held key

/-- The name of the membership lemma of a declaration: `memberLead` and `memberRest?`. -/
def memberName? (supply : NameSupply DeclKey) (key : DeclKey) : Option String :=
  (memberRest? supply key).map (memberLead key ++ ·)

/-- The name of the lemma about a declaration in the list of constants, by the name that `supply`
    holds. -/
def constMemberName? (supply : NameSupply DeclKey) (key : DeclKey) : Option String :=
  (supply.held key).map ("mconst_" ++ ·)

section

variable {supply : NameSupply DeclKey} {key key' : DeclKey} {n preferred : String}

/-- `memberName?` is a lead and a rest. -/
private theorem memberName?_eq_some_iff :
    memberName? supply key = some n ↔
      ∃ rest, memberRest? supply key = some rest ∧ memberLead key ++ rest = n :=
  Option.map_eq_some_iff

/-- `memberName?` stays when another name is taken. -/
private theorem memberName?_name (h : memberName? supply key' = some n) :
    memberName? (supply.name key preferred).2 key' = some n := by
  obtain ⟨rest, hrest, rfl⟩ := memberName?_eq_some_iff.1 h
  refine memberName?_eq_some_iff.2 ⟨rest, ?_, rfl⟩
  cases key' with
  | axiomAt index => exact hrest
  | _ => exact NameSupply.held_name_of_held hrest

/-- Different declarations have different `memberName?`. -/
private theorem memberName?_injective (hsupply : supply.Distinct)
    (h : memberName? supply key = some n) (h' : memberName? supply key' = some n) : key = key' := by
  obtain ⟨rest, hrest, rfl⟩ := memberName?_eq_some_iff.1 h
  obtain ⟨rest', hrest', heq⟩ := memberName?_eq_some_iff.1 h'
  cases key <;> cases key' <;> simp only [memberLead] at heq
  case function.function | variable.variable =>
    obtain rfl := (String.append_right_inj _).1 heq
    exact hsupply hrest hrest'
  case axiomAt.axiomAt i j =>
    obtain rfl : toString i = rest := Option.some.inj hrest
    obtain rfl : toString j = rest' := Option.some.inj hrest'
    rw [toString_injective ((String.append_right_inj _).1 heq)]
  -- Declarations of different kinds have different leads.
  all_goals exact absurd heq (Apart.append_ne (by decide) _ _)

/-- `constMemberName?` is a lead and the name that is held. -/
private theorem constMemberName?_eq_some_iff :
    constMemberName? supply key = some n ↔
      ∃ rest, supply.held key = some rest ∧ "mconst_" ++ rest = n :=
  Option.map_eq_some_iff

/-- `constMemberName?` stays when another name is taken. -/
private theorem constMemberName?_name (h : constMemberName? supply key' = some n) :
    constMemberName? (supply.name key preferred).2 key' = some n := by
  obtain ⟨rest, hrest, rfl⟩ := constMemberName?_eq_some_iff.1 h
  exact constMemberName?_eq_some_iff.2 ⟨rest, NameSupply.held_name_of_held hrest, rfl⟩

/-- Different declarations have different `constMemberName?`. -/
private theorem constMemberName?_injective (hsupply : supply.Distinct)
    (h : constMemberName? supply key = some n) (h' : constMemberName? supply key' = some n) :
    key = key' := by
  obtain ⟨rest, hrest, rfl⟩ := constMemberName?_eq_some_iff.1 h
  obtain ⟨rest', hrest', heq⟩ := constMemberName?_eq_some_iff.1 h'
  obtain rfl := (String.append_right_inj _).1 heq
  exact hsupply hrest hrest'

end

/-! ## Names of look-up lemmas -/

/-- `legalName` keeps the lead of a look-up lemma. -/
private theorem legalName_lookup (spacer name : String) :
    ∃ rest, legalName spacer ("l_" ++ name) = "l_" ++ rest := by
  refine ⟨.ofList (name.toList.flatMap fun c =>
    if isIllegal c then spacerFor c spacer.toList else [c]), ?_⟩
  have hlist : ("l_" ++ name).toList = 'l' :: '_' :: name.toList := by
    rw [String.toList_append]; rfl
  have hlead : isIllegal 'l' = false ∧ isIllegal '_' = false := by decide
  rw [← String.toList_inj, legalName, hlist, String.toList_append]
  simp [startsLegally, hlead]

/-- Whatever else is taken, `fresh` gives a look-up lemma a name with its lead. -/
private theorem fresh_lookup (supply : NameSupply DeclKey) (name : String) :
    ∃ rest,
      supply.fresh (legalName supply.spacer (NameSupply.wanted ("l_" ++ name))) = "l_" ++ rest := by
  have hwanted : NameSupply.wanted ("l_" ++ name) = "l_" ++ name := by
    have hne : "l_" ++ name ≠ "A" := (by decide : Apart "l_" "A").append_ne_self name
    simp [NameSupply.wanted, reservedNames, hne]
  obtain ⟨rest, hrest⟩ := legalName_lookup supply.spacer name
  rw [hwanted, hrest]
  rcases supply.fresh_cases ("l_" ++ rest) with ⟨_, heq⟩ | ⟨_, k, heq, _⟩
  · exact ⟨rest, heq⟩
  · exact ⟨rest ++ supply.spacer ++ toString k, by rw [heq]; simp only [String.append_assoc]⟩

/-! ## Names of a scope -/

/-- The names of the lemmas of a scope tell their declarations. -/
structure Scope.WellNamed (s : Scope) : Prop where
  memberNames : s.memberNames.Distinct
  lookupNames : s.lookupNames.Distinct
  memberKeys : (s.members.map Prod.fst).Nodup
  constMemberKeys : (s.constMembers.map Prod.fst).Nodup
  lookupKeys : (s.lookups.map Prod.fst).Nodup
  members : ∀ e ∈ s.members, memberName? s.memberNames e.1 = some e.2.name
  constMembers : ∀ e ∈ s.constMembers, constMemberName? s.memberNames e.1 = some e.2.name
  lookups : ∀ e ∈ s.lookups, s.lookupNames.held e.1 = some e.2.name
  lookupLead : ∀ key n, s.lookupNames.held key = some n → ∃ rest, n = "l_" ++ rest

/-- A table gets no key twice if its keys are different and the key is new. -/
private theorem nodup_keys_append {t : LemmaTable} {key : DeclKey} {l : Lemma}
    (h : (t.map Prod.fst).Nodup) (hnew : key ∉ t.map Prod.fst) :
    ((t ++ [(key, l)]).map Prod.fst).Nodup := by
  rw [List.map_append]
  exact h.append (List.nodup_singleton key) (List.disjoint_singleton.2 hnew)

/-- A `MemberEntry` is named by `memberName?`. -/
theorem MemberEntry.name {s : Scope} {key : DeclKey} {l : Lemma} (h : MemberEntry s key l) :
    memberName? s.memberNames key = some l.name := by
  cases h with
  | function hheld => exact memberName?_eq_some_iff.2 ⟨_, hheld, rfl⟩
  | axiomAt => rfl
  | var hheld => exact memberName?_eq_some_iff.2 ⟨_, hheld, rfl⟩

/-- A single `Step` keeps a scope `WellNamed`. -/
theorem Catalog.Step.wellNamed {c c' : Catalog} (h : Step c c') (hc : c.scope.WellNamed) :
    c'.scope.WellNamed := by
  cases h with
  | memberName key preferred =>
    refine { hc with
      memberNames := hc.memberNames.name key preferred, members := ?_, constMembers := ?_ }
    · exact fun e he => memberName?_name (hc.members e he)
    · exact fun e he => constMemberName?_name (hc.constMembers e he)
  | lookupName v =>
    refine { hc with lookupNames := hc.lookupNames.name _ _, lookups := ?_, lookupLead := ?_ }
    · exact fun e he => NameSupply.held_name_of_held (hc.lookups e he)
    · intro key n hn
      rcases c.scope.lookupNames.name_cases v.key ("l_" ++ v.name) with
        ⟨n', hheld, heq⟩ | ⟨new, _, hnew, heq⟩
      · exact hc.lookupLead key n (by simpa only [withScope, heq] using hn)
      · -- Only the variable itself has got a new name.
        simp only [withScope] at hn
        rw [NameSupply.held_name] at hn
        by_cases hkey : key = v.key
        · rw [if_pos hkey, heq] at hn
          rw [← Option.some.inj hn, hnew]
          exact fresh_lookup _ _
        · rw [if_neg hkey] at hn
          exact hc.lookupLead key n hn
  | member hnew hentry =>
    refine { hc with memberKeys := nodup_keys_append hc.memberKeys hnew, members := ?_ }
    exact List.forall_mem_append.2 ⟨hc.members, List.forall_mem_singleton.2 hentry.name⟩
  | constMember hnew hentry =>
    refine { hc with
      constMemberKeys := nodup_keys_append hc.constMemberKeys hnew, constMembers := ?_ }
    refine List.forall_mem_append.2 ⟨hc.constMembers, List.forall_mem_singleton.2 ?_⟩
    cases hentry with
    | constant hheld => exact constMemberName?_eq_some_iff.2 ⟨_, hheld, rfl⟩
  | lookup hnew hentry =>
    refine { hc with lookupKeys := nodup_keys_append hc.lookupKeys hnew, lookups := ?_ }
    refine List.forall_mem_append.2 ⟨hc.lookups, List.forall_mem_singleton.2 ?_⟩
    cases hentry with
    | var hheld _ => exact hheld

/-- Any number of `Steps` keep a scope `WellNamed`. -/
theorem Catalog.Steps.wellNamed {c c' : Catalog} (h : Steps c c') (hc : c.scope.WellNamed) :
    c'.scope.WellNamed := by
  induction h with
  | refl => exact hc
  | tail _ hstep ih => exact hstep.wellNamed ih

/-! ## Names are unique -/

/-- Lemmas as declarations have their own names. -/
theorem names_statements (ls : List Lemma) :
    (ls.map Decl.statement).filterMap Decl.name? = ls.map Lemma.name := by
  rw [List.filterMap_map]
  exact congrFun (List.filterMap_eq_map (f := Lemma.name)) ls

/-- The names in `Scope.decls` are those of `Scope.lemmas`. -/
theorem Scope.names_decls (s : Scope) : s.decls.filterMap Decl.name? = s.lemmas.map Lemma.name :=
  names_statements s.lemmas

/-- Lemmas that are named after their keys by `name?` have different names if their keys are
    different. -/
private theorem nodup_names_of_keys {t : LemmaTable} {name? : DeclKey → Option String}
    (hinj : ∀ key key' n, name? key = some n → name? key' = some n → key = key')
    (hname : ∀ e ∈ t, name? e.1 = some e.2.name) (hkeys : (t.map Prod.fst).Nodup) :
    (t.lemmas.map Lemma.name).Nodup := by
  rw [LemmaTable.lemmas, List.map_map, List.Nodup, List.pairwise_map]
  rw [List.Nodup, List.pairwise_map] at hkeys
  refine hkeys.imp_of_mem fun {e e'} he he' hne heq => hne ?_
  have heq : e.2.name = e'.2.name := heq
  exact hinj _ _ _ (hname e he) (heq ▸ hname e' he')

/-- The names that `helperLemmas` can have. -/
def helperNames : List String :=
  ["globals_max_aux", "globals_max", "locals_min_aux", "locals_min", "globals_locals_disj"] ++
    wellFormednessNames

/-- The names of `helperLemmas`, by what the scope generates. -/
theorem helperLemmas_names (s : Scope) (low : VarId) (script : Script) :
    (helperLemmas s low script).map Lemma.name =
      (if s.generates.globals then ["globals_max_aux", "globals_max"] else []) ++
        ["locals_min_aux", "locals_min", "globals_locals_disj"] ++
        if s.generates.functions then wellFormednessNames else [] := by
  unfold helperLemmas
  cases s.generates.globals <;> cases s.generates.functions <;> rfl

/-- The `helperLemmas` have no other names than `helperNames`, and none twice. -/
private theorem helperLemmas_sublist (s : Scope) (low : VarId) (script : Script) :
    ((helperLemmas s low script).map Lemma.name).Sublist helperNames := by
  rw [helperLemmas_names]
  cases s.generates.globals <;> cases s.generates.functions <;> decide

namespace Scope.WellNamed

variable {s : Scope} {n : String}

/-- Membership lemmas are `Led` by one of three leads. -/
private theorem led_members (h : s.WellNamed) (hn : n ∈ s.members.lemmas.map Lemma.name) :
    Led ["mfun_", "m_", "ma_"] n := by
  obtain ⟨l, hl, rfl⟩ := List.mem_map.1 hn
  obtain ⟨e, he, rfl⟩ := List.mem_map.1 hl
  obtain ⟨rest, _, heq⟩ := memberName?_eq_some_iff.1 (h.members e he)
  refine ⟨memberLead e.1, ?_, rest, heq.symm⟩
  cases e.1 <;> simp [memberLead]

/-- Lemmas about the list of constants are `Led` by `mconst_`. -/
private theorem led_constMembers (h : s.WellNamed) (hn : n ∈ s.constMembers.lemmas.map Lemma.name) :
    Led ["mconst_"] n := by
  obtain ⟨l, hl, rfl⟩ := List.mem_map.1 hn
  obtain ⟨e, he, rfl⟩ := List.mem_map.1 hl
  obtain ⟨rest, _, heq⟩ := constMemberName?_eq_some_iff.1 (h.constMembers e he)
  exact ⟨_, List.mem_singleton_self _, rest, heq.symm⟩

/-- Look-up lemmas are `Led` by `l_`. -/
private theorem led_lookups (h : s.WellNamed) (hn : n ∈ s.lookups.lemmas.map Lemma.name) :
    Led ["l_"] n := by
  obtain ⟨l, hl, rfl⟩ := List.mem_map.1 hn
  obtain ⟨e, he, rfl⟩ := List.mem_map.1 hl
  exact ⟨_, List.mem_singleton_self _, h.lookupLead e.1 _ (h.lookups e he)⟩

/-- Every name of a `WellNamed` scope is that of a helper or has one of five leads. -/
theorem led_names (h : s.WellNamed) (hhelpers : (s.helpers.map Lemma.name).Sublist helperNames)
    (hn : n ∈ s.lemmas.map Lemma.name) :
    Led (helperNames ++ ["mconst_", "mfun_", "m_", "ma_", "l_"]) n := by
  rw [lemmas, List.map_append, List.map_append, List.map_append] at hn
  simp only [List.mem_append] at hn
  rcases hn with ((hn | hn) | hn) | hn
  · exact (led_of_mem (hhelpers.mem hn)).mono (by decide)
  · exact (h.led_constMembers hn).mono (by decide)
  · exact (h.led_members hn).mono (by decide)
  · exact (h.led_lookups hn).mono (by decide)

/-- Different lemmas of a `WellNamed` scope have different names. -/
theorem nodup_names (h : s.WellNamed) (hhelpers : (s.helpers.map Lemma.name).Sublist helperNames) :
    (s.lemmas.map Lemma.name).Nodup := by
  -- Within a table the names tell the keys apart.
  have hmembers := nodup_names_of_keys (fun _ _ _ => memberName?_injective h.memberNames)
    h.members h.memberKeys
  have hconsts := nodup_names_of_keys (fun _ _ _ => constMemberName?_injective h.memberNames)
    h.constMembers h.constMemberKeys
  have hlookups := nodup_names_of_keys (fun _ _ _ hk hk' => h.lookupNames hk hk')
    h.lookups h.lookupKeys
  rw [lemmas, List.map_append, List.map_append, List.map_append, List.nodup_append,
    List.nodup_append, List.nodup_append]
  -- Different tables have different leads, and no helper has one of these.
  have hhelper {n : String} (hn : n ∈ s.helpers.map Lemma.name) : Led helperNames n :=
    led_of_mem (hhelpers.mem hn)
  refine ⟨⟨⟨hhelpers.nodup (by decide), hconsts, ?_⟩, hmembers, ?_⟩, hlookups, ?_⟩
  · exact fun n hn n' hn' => (hhelper hn).ne (h.led_constMembers hn') (by decide)
  · intro n hn n' hn'
    rcases List.mem_append.1 hn with hn | hn
    · exact (hhelper hn).ne (h.led_members hn') (by decide)
    · exact (h.led_constMembers hn).ne (h.led_members hn') (by decide)
  · intro n hn n' hn'
    rcases List.mem_append.1 hn with hn | hn
    · rcases List.mem_append.1 hn with hn | hn
      · exact (hhelper hn).ne (h.led_lookups hn') (by decide)
      · exact (h.led_constMembers hn).ne (h.led_lookups hn') (by decide)
    · exact (h.led_members hn).ne (h.led_lookups hn') (by decide)

end Scope.WellNamed

/-- A scope where nothing was registered is `WellNamed`, as there are no names. -/
private theorem Scope.WellNamed.of_nil {s : Scope} {spacer : String} (hmembers : s.members = [])
    (hconsts : s.constMembers = []) (hlookups : s.lookups = [])
    (hmemberNames : s.memberNames = { spacer }) (hlookupNames : s.lookupNames = { spacer }) :
    s.WellNamed where
  memberNames := hmemberNames ▸ NameSupply.distinct_empty spacer
  lookupNames := hlookupNames ▸ NameSupply.distinct_empty spacer
  memberKeys := by simp [hmembers]
  constMemberKeys := by simp [hconsts]
  lookupKeys := by simp [hlookups]
  members := by simp [hmembers]
  constMembers := by simp [hconsts]
  lookups := by simp [hlookups]
  lookupLead key n h := by simp [hlookupNames, NameSupply.held] at h

namespace Catalog

section

variable {config : Config} {names : ListNames} {globalIds localIds : List VarId}
  {enclosing : List Scope} {c : Catalog}

/-- `Catalog.create` gives a `WellNamed` scope. -/
private theorem wellNamed_of_create
    (h : Catalog.create config names globalIds localIds enclosing = .ok c) :
    c.scope.WellNamed ∧ (c.scope.helpers.map Lemma.name).Sublist helperNames := by
  obtain ⟨hmembers, hconsts, hlookups, hmemberNames, hlookupNames⟩ := create_registered h
  refine ⟨.of_nil hmembers hconsts hlookups hmemberNames hlookupNames, ?_⟩
  obtain ⟨s, script, _, _, _, rfl⟩ := Catalog.create_eq_ok h
  exact helperLemmas_sublist s _ script

/-- Whatever is registered after `Catalog.create`, the scope is `WellNamed`. -/
theorem wellNamed_of_steps {c' : Catalog}
    (h : Catalog.create config names globalIds localIds enclosing = .ok c) (hsteps : Steps c c') :
    c'.scope.WellNamed ∧ (c'.scope.helpers.map Lemma.name).Sublist helperNames := by
  obtain ⟨hnamed, hhelpers⟩ := wellNamed_of_create h
  have hsame : c'.scope.helpers = c.scope.helpers :=
    (congrArg Scope.helpers hsteps.extends.cleared :)
  exact ⟨hsteps.wellNamed hnamed, hsame ▸ hhelpers⟩

/-- Whatever is registered after `Catalog.create`, the names of the lemmas are different. -/
private theorem nodup_names_of_steps {c' : Catalog}
    (h : Catalog.create config names globalIds localIds enclosing = .ok c) (hsteps : Steps c c') :
    (c'.scope.lemmas.map Lemma.name).Nodup := by
  obtain ⟨hnamed, hhelpers⟩ := wellNamed_of_steps h hsteps
  exact hnamed.nodup_names hhelpers

end

/-! ## What is cited stays -/

/-- `LemmaTable.get?` finds the same in a longer table. -/
theorem get?_of_extended {t t' : LemmaTable} (h : t <+: t') {key : DeclKey} {l : Lemma}
    (hl : t.get? key = some l) : t'.get? key = some l := by
  obtain ⟨more, rfl⟩ := h
  rw [LemmaTable.get?] at hl ⊢
  rw [List.lookup_append, hl]
  rfl

/-- What the innermost scope finds is what `nearest` cites. -/
private theorem nearest_cons {cause : Error} {find : Scope → Option String} {s : Scope}
    {outer : List Scope} {name : String} (h : find s = some name) :
    nearest cause find (s :: outer) = .ok (s.qualify name) := by
  rw [nearest, h]

variable {c c' : Catalog} {key : DeclKey} {l : Lemma}

/-- A lemma that was filed is what `nearest` cites after all further steps. -/
theorem Extends.nearest (h : Extends c c') {cause : Error} {table : Scope → LemmaTable}
    (htable : table c.scope <+: table c'.scope) (hl : (table c.scope).get? key = some l) :
    nearest cause (fun s => ((table s).get? key).map Lemma.name) c'.chain =
      .ok (c.scope.qualify l.name) := by
  have htheory : c'.scope.theory = c.scope.theory := (congrArg Scope.theory h.cleared :)
  rw [chain, nearest_cons (by rw [get?_of_extended htable hl]; rfl), Scope.qualify, htheory]
  rfl

/-- Whatever is registered after `Catalog.create`, and wherever calls stop: the names of the lemmas
    are different, every declaration has at most one lemma in each table, and once it has one this
    is the lemma that is cited, after all further calls. -/
theorem lemma_names_unique {config : Config} {names : ListNames} {globalIds localIds : List VarId}
    {enclosing : List Scope} (h : Catalog.create config names globalIds localIds enclosing = .ok c)
    (calls : List Call) :
    let scope := (c.run calls).2.scope
    (scope.decls.filterMap Decl.name?).Nodup ∧
    (scope.members.map Prod.fst).Nodup ∧ (scope.constMembers.map Prod.fst).Nodup ∧
    (scope.lookups.map Prod.fst).Nodup ∧
    ∀ further key l, let later := ((c.run calls).2.run further).2
      (scope.members.get? key = some l → memberLemma later.chain key = .ok (scope.qualify l.name)) ∧
      (scope.constMembers.get? key = some l →
        constMemberLemma later.chain key = .ok (scope.qualify l.name)) ∧
      (scope.lookups.get? key = some l →
        lookupLemma later.chain key = .ok (scope.qualify l.name)) := by
  have hsteps := c.run_steps calls
  have hnamed := hsteps.wellNamed (wellNamed_of_create h).1
  refine ⟨?_, hnamed.memberKeys, hnamed.constMemberKeys, hnamed.lookupKeys, fun further key l => ?_⟩
  · rw [Scope.names_decls]
    exact nodup_names_of_steps h hsteps
  · -- Further calls only add to the tables, so what was found is found again.
    have hextends := ((c.run calls).2.run_steps further).extends
    exact ⟨hextends.nearest hextends.members, hextends.nearest hextends.constMembers,
      hextends.nearest hextends.lookups⟩

/-- Declarations whose names crowd each other.  The third call stops at a variable that was
    registered before, the fourth at one that was not. -/
def crowdedCalls : List Call :=
  [.functions [⟨"x", [], [], .int⟩], .vars [⟨"x", .int, 0⟩] .constant true,
   .vars [⟨"x", .int, 7⟩, ⟨"x_0", .int, 8⟩, ⟨"y", .int, 0⟩] .paramOrLocal true,
   .lookups [⟨"x", .int, 7⟩, ⟨"z", .int, 9⟩]]

/-- After `crowdedCalls` the names are different, and what was cited is cited after the same calls
    again. -/
theorem lemma_names_unique_crowded :
    ∃ c, Catalog.create {} {} [0] [7, 8] [] = .ok c ∧
      (c.run crowdedCalls).2.scope.decls.filterMap Decl.name? = helperNames ++
        ["mconst_x_0", "mfun_x", "m_x_0", "m_x_1", "m_x_0_0", "l_x", "l_x_0"] ∧
      ((c.run crowdedCalls).2.scope.decls.filterMap Decl.name?).Nodup ∧
      memberLemma ((c.run crowdedCalls).2.run crowdedCalls).2.chain (.variable 8) =
        .ok ((c.run crowdedCalls).2.scope.qualify "m_x_0_0") := by
  obtain ⟨c, hc⟩ : ∃ c, Catalog.create {} {} [0] [7, 8] [] = .ok c := ⟨_, rfl⟩
  obtain ⟨hnames, _, _, _, hkept⟩ := lemma_names_unique hc crowdedCalls
  have hmember : ((c.run crowdedCalls).2.scope.members.get? (.variable 8)).map Lemma.name =
      some "m_x_0_0" := by
    obtain rfl := Except.ok.inj hc
    rfl
  obtain ⟨l, hl, hname⟩ := Option.map_eq_some_iff.1 hmember
  refine ⟨c, hc, ?_, hnames, hname ▸ (hkept crowdedCalls (.variable 8) l).1 hl⟩
  obtain rfl := Except.ok.inj hc
  rfl

end Catalog

end Warrant
