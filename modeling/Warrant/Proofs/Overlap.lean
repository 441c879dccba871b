import Warrant.Proofs.Disjointness

/-!
# When ranges of ids overlap

A catalog is refused with `rangesOverlap` if the bound on the ids of globals is not below the bound
on the ids of locals.  The bounds only stand for the ids.  Without globals the bound is made up from
the locals of the scope that generates globals, and the scopes inside inherit it; without locals the
bound is the id after the globals, and the last id has none after it.  So an overlap may be reported
where no two ids overlap.

* `create_eq_rangesOverlap_iff`: the bounds for which an overlap is reported.
* `Nested.globalsBound`: in nested scopes the bound comes from the nearest scope that generates
  globals.
* `overlap_reported_iff`: the ids for which an overlap is reported.
-/

namespace Warrant

/-! ## Failures of creation -/

/-- `nearest` fails for the one `cause` that it is given. -/
private theorem nearest_eq_error {cause e : Error} {find : Scope → Option String}
    {chain : List Scope} (h : nearest cause find chain = .error e) : e = cause := by
  induction chain with
  | nil => exact (Except.error.inj h).symm
  | cons s outer ih =>
    rw [nearest] at h
    split at h
    · cases h
    · exact ih h

section

variable {config : Config} {names : ListNames} {globalIds localIds : List VarId}
  {enclosing : List Scope} {s : Scope}

/-- `resolveScope` fails only with `missingParent`, where lists would have to come from a scope
    around that is not there. -/
private theorem resolveScope_eq_error {e : Error}
    (h : resolveScope config names globalIds localIds enclosing = .error e) :
    ∃ what, e = .missingParent what := by
  cases enclosing with
  | cons p outer =>
    rw [resolveScope_cons] at h
    cases h
  | nil =>
    obtain ⟨theory, imports, spacer, locale, functions, axioms, globals, locals⟩ := config
    -- The groups are resolved in a fixed order, and the first that is not generated is reported.
    cases locals <;> cases globals <;>
      cases functions <;> cases axioms <;> cases h <;> exact ⟨_, rfl⟩

/-- Without a scope around it `resolveScope` succeeds exactly if the scope generates all groups. -/
private theorem resolveScope_succeeds_iff :
    Succeeds (resolveScope config names globalIds localIds enclosing) ↔
      (enclosing = [] → config.generates = {}) := by
  cases enclosing with
  | cons p outer => exact iff_of_true ⟨_, resolveScope_cons p outer⟩ fun h => nomatch h
  | nil =>
    constructor
    · intro ⟨s, hs⟩ _
      exact generates_of_resolveScope_nil hs
    · intro h
      exact ⟨_, resolveScope_nil (h rfl)⟩

/-- A scope from `resolveScope` generates what its settings say, and its `globalsBound` is its own
    or inherited. -/
private theorem resolveScope_bound
    (h : resolveScope config names globalIds localIds enclosing = .ok s) :
    s.generates = config.generates ∧
      (config.generates.globals = true ∧ s.globalsBound = ownGlobalsBound globalIds localIds ∨
        config.generates.globals = false ∧
          ∃ p outer, enclosing = p :: outer ∧ s.globalsBound = p.globalsBound) := by
  obtain ⟨hgen, rfl⟩ | ⟨p, outer, rfl, rfl⟩ := resolveScope_cases h
  · exact ⟨rfl, .inl ⟨congrArg Groups.globals hgen, rfl⟩⟩
  · cases hg : config.generates.globals with
    | true => exact ⟨rfl, .inl ⟨rfl, by simp [delegatingScope, ownScope, hg]⟩⟩
    | false => exact ⟨rfl, .inr ⟨rfl, p, outer, rfl, by simp [delegatingScope, hg]⟩⟩

/-- `emptyLists?` finds no pair of lists exactly if each side that is generated has ids. -/
private theorem emptyLists?_eq_none_iff :
    emptyLists? s globalIds localIds = none ↔
      (s.generates.globals = true → globalIds ≠ []) ∧
      (s.generates.locals = true → localIds ≠ []) := by
  unfold emptyLists?
  cases s.generates.globals <;> cases s.generates.locals <;> cases globalIds <;> cases localIds <;>
    simp

/-- `disjointnessLemmas` are refused for an overlap if the bounds are needed and are not apart. -/
private theorem disjointnessLemmas_eq_rangesOverlap_iff {hi lo : VarId} :
    disjointnessLemmas s enclosing globalIds localIds = .error (.rangesOverlap hi lo) ↔
      (∀ id ∈ globalIds, id ≤ s.globalsBound) ∧ emptyLists? s globalIds localIds = none ∧
        hi = s.globalsBound ∧ lo = localsBound s localIds ∧ lo ≤ hi := by
  have hfind : globalIds.find? (fun id => !(id ≤ s.globalsBound)) = none ↔
      ∀ id ∈ globalIds, id ≤ s.globalsBound := by
    simp [List.find?_eq_none]
  unfold disjointnessLemmas
  cases hbad : globalIds.find? fun id => !(id ≤ s.globalsBound) with
  | some id =>
    -- An id above the bound is reported as such.
    have hnot := mt hfind.2 (by rw [hbad]; exact Option.some_ne_none _)
    exact iff_of_false (fun h => nomatch h) fun h => hnot h.1
  | none =>
    rw [and_iff_right (hfind.1 hbad)]
    cases hempty : emptyLists? s globalIds localIds with
    | some lists => exact iff_of_false (fun h => nomatch h) fun h => nomatch h.1
    | none =>
      rw [and_iff_right rfl]
      by_cases hle : s.globalsBound ≥ localsBound s localIds
      · simp only [if_pos hle]
        constructor
        · intro h
          obtain ⟨rfl, rfl⟩ := Error.rangesOverlap.inj (Except.error.inj h)
          exact ⟨rfl, rfl, hle⟩
        · rintro ⟨rfl, rfl, _⟩
          rfl
      · -- The bounds are apart, so only the lemma about globals can be missing.
        simp only [if_neg hle]
        refine iff_of_false (fun h => ?_) fun ⟨hhi, hlo, h⟩ => hle (hhi ▸ hlo ▸ h)
        cases hcite : globalsMaxLemma (s :: enclosing) with
        | ok globalsMax =>
          rw [hcite] at h
          cases h
        | error e =>
          rw [hcite, nearest_eq_error hcite] at h
          cases h

/-- `Catalog.create` is refused for an overlap if the lists can be resolved, no generated pair of
    lists is empty and the bounds are not apart. -/
theorem create_eq_rangesOverlap_iff {hi lo : VarId} :
    Catalog.create config names globalIds localIds enclosing = .error (.rangesOverlap hi lo) ↔
      ∃ s, resolveScope config names globalIds localIds enclosing = .ok s ∧
        (∀ id ∈ globalIds, id ≤ s.globalsBound) ∧ emptyLists? s globalIds localIds = none ∧
          hi = s.globalsBound ∧ lo = localsBound s localIds ∧ lo ≤ hi := by
  unfold Catalog.create
  cases hresolve : resolveScope config names globalIds localIds enclosing with
  | error e =>
    obtain ⟨what, rfl⟩ := resolveScope_eq_error hresolve
    exact iff_of_false (fun h => nomatch h) fun ⟨_, h, _⟩ => nomatch h
  | ok s =>
    have hiff := @disjointnessLemmas_eq_rangesOverlap_iff globalIds localIds enclosing s hi lo
    simp only [Except.ok.injEq, exists_eq_left', ← hiff]
    show (disjointnessLemmas s enclosing globalIds localIds >>= _) = _ ↔ _
    cases disjointnessLemmas s enclosing globalIds localIds with
    | error e =>
      constructor
      · intro h
        exact congrArg _ (Except.error.inj h)
      · intro h
        exact congrArg _ (Except.error.inj h)
    | ok ls =>
      -- What comes after these lemmas cannot fail.
      exact iff_of_false (fun h => nomatch h) fun h => nomatch h

end

/-! ## Nested scopes -/

/-- The ids that a scope was created with by `Catalog.create`. -/
structure ScopeIds where
  globals : List VarId
  locals : List VarId

/-- Scopes that were made by `Catalog.create` inside each other, the innermost first, each with its
    ids.  Declarations may have been registered since. -/
inductive Nested : List (Scope × ScopeIds) → Prop where
  | nil : Nested []
  | cons {config : Config} {names : ListNames} {ids : ScopeIds} {outer : List (Scope × ScopeIds)}
      {c : Catalog} {s : Scope} (houter : Nested outer)
      (hcreate : Catalog.create config names ids.globals ids.locals (outer.map Prod.fst) = .ok c)
      (hs : s.cleared = c.scope.cleared) : Nested ((s, ids) :: outer)

/-- The ids of the nearest of the scopes `outer` that generates globals. -/
def owner? (outer : List (Scope × ScopeIds)) : Option ScopeIds :=
  (outer.find? (·.1.generates.globals)).map Prod.snd

/-- In `Nested` scopes `globalsBound` is the one that the nearest scope which generates globals has
    made. -/
theorem Nested.globalsBound {s : Scope} {ids : ScopeIds} {outer : List (Scope × ScopeIds)}
    (h : Nested ((s, ids) :: outer)) :
    ∃ owner, owner? ((s, ids) :: outer) = some owner ∧
      s.globalsBound = ownGlobalsBound owner.globals owner.locals := by
  generalize hchain : (s, ids) :: outer = chain at h
  induction h generalizing s ids outer with
  | nil => cases hchain
  | @cons config names ids' outer' c s' houter hcreate hs ih =>
    obtain ⟨hpair, rfl⟩ := List.cons.inj hchain
    obtain ⟨rfl, rfl⟩ := Prod.mk.inj hpair
    obtain ⟨base, script, hbase, _, _, rfl⟩ := Catalog.create_eq_ok hcreate
    have hgen : s.generates = base.generates := (congrArg Scope.generates hs :)
    have hbound : s.globalsBound = base.globalsBound := (congrArg Scope.globalsBound hs :)
    obtain ⟨hbaseGen, ⟨hown, hb⟩ | ⟨hown, p, rest, hrest, hb⟩⟩ := resolveScope_bound hbase
    · -- The scope generates globals, so the bound is its own.
      refine ⟨ids, ?_, hbound.trans hb⟩
      have hfind : s.generates.globals = true := by rw [hgen, hbaseGen, hown]
      simp [owner?, hfind]
    · -- The scope has the bound of the scope around it, and the same owner.
      have hskip : s.generates.globals = false := by rw [hgen, hbaseGen, hown]
      cases outer with
      | nil => cases hrest
      | cons around outer =>
        obtain ⟨owner, howner, hownerBound⟩ := ih rfl
        obtain ⟨hp, _⟩ := List.cons.inj hrest
        refine ⟨owner, ?_, ?_⟩
        · simpa [owner?, hskip] using howner
        · rw [hbound, hb, ← hp, hownerBound]

/-! ## Overlapping ids -/

/-- The last id, which is its own `VarId.next`. -/
def VarId.last : VarId := .ofNat (UInt32.size - 1)

/-- Only the last id has no greater `VarId.next`. -/
private theorem VarId.next_le_iff (id : VarId) : id.next ≤ id ↔ id = VarId.last := by
  have hlast : VarId.last.toNat = UInt32.size - 1 := rfl
  have hsize : UInt32.size = 4294967296 := rfl
  have hlt := id.toNat_lt
  rw [UInt32.le_iff_toNat_le, ← UInt32.toNat_inj, hlast]
  unfold VarId.next
  split
  · -- Below the last id there is no overflow, and the next id is greater.
    next h =>
    have hnext : (id + 1).toNat = id.toNat + 1 := by
      rw [UInt32.toNat_add]
      exact Nat.mod_eq_of_lt h
    omega
  · omega

/-- Some global has an id that is not below the id of some local. -/
def Overlapping (globalIds localIds : List VarId) : Prop := ∃ g ∈ globalIds, ∃ l ∈ localIds, l ≤ g

/-- Ids are `Overlapping` exactly if the least local is not above the greatest global. -/
private theorem overlapping_iff {globalIds localIds : List VarId} {hi lo : VarId}
    (hhi : globalIds.max? = some hi) (hlo : localIds.min? = some lo) :
    Overlapping globalIds localIds ↔ lo ≤ hi := by
  obtain ⟨hhiMem, hhiMax⟩ := List.max?_eq_some_iff.1 hhi
  obtain ⟨hloMem, hloMin⟩ := List.min?_eq_some_iff.1 hlo
  constructor
  · rintro ⟨g, hg, l, hl, hle⟩
    exact UInt32.le_trans (hloMin l hl) (UInt32.le_trans hle (hhiMax g hg))
  · intro hle
    exact ⟨hi, hhiMem, lo, hloMem, hle⟩

section

variable {config : Config} {names : ListNames} {globalIds localIds : List VarId}
  {outer : List (Scope × ScopeIds)}

/-- There are no globals, and the `bound` for them was made up from the locals of a scope around. -/
def MadeUp (config : Config) (outer : List (Scope × ScopeIds)) (globalIds : List VarId)
    (bound : VarId) : Prop :=
  globalIds = [] ∧ config.generates.globals = false ∧
    ∃ owner, owner? outer = some owner ∧ bound = ownGlobalsBound [] owner.locals

/-- What an overlap (`rangesOverlap`) is reported for. -/
inductive OverlapCause (config : Config) (outer : List (Scope × ScopeIds))
    (globalIds localIds : List VarId) : Prop where
  | ids (h : Overlapping globalIds localIds)
  /-- A local that is not above a made-up bound. -/
  | madeUp {bound : VarId} (hbound : MadeUp config outer globalIds bound)
      (h : ∃ l ∈ localIds, l ≤ bound)
  /-- The last id as bound, where there are no locals and their lists are not generated. -/
  | last (hnone : localIds = []) (hinherits : config.generates.locals = false)
      (h : VarId.last ∈ globalIds ∨ MadeUp config outer globalIds VarId.last)

/-- The `globalsBound` of a scope that has the globals of the nearest scope that generates them:
    their maximum, of no matter, or `MadeUp`. -/
private theorem resolveScope_bound_cases {s : Scope} (hnested : Nested outer)
    (hsame : config.generates.globals = false → ∀ owner, owner? outer = some owner →
      globalIds = owner.globals)
    (hs : resolveScope config names globalIds localIds (outer.map Prod.fst) = .ok s) :
    globalIds.max? = some s.globalsBound ∨ globalIds = [] ∧ config.generates.globals = true ∨
      MadeUp config outer globalIds s.globalsBound := by
  have hown (ls : List VarId) :
      globalIds.max? = some (ownGlobalsBound globalIds ls) ∨ globalIds = [] := by
    unfold ownGlobalsBound
    cases hmax : globalIds.max? with
    | some hi => exact .inl rfl
    | none => exact .inr (List.max?_eq_none_iff.1 hmax)
  obtain ⟨_, ⟨hgen, hbound⟩ | ⟨hgen, p, rest, hrest, hbound⟩⟩ := resolveScope_bound hs
  · rw [hbound]
    exact (hown localIds).imp_right fun h => .inl ⟨h, hgen⟩
  · cases outer with
    | nil => cases hrest
    | cons around outer =>
      obtain ⟨owner, howner, hownerBound⟩ := hnested.globalsBound
      obtain ⟨hp, _⟩ := List.cons.inj hrest
      -- The scope has the ids of its owner, so only their absence makes a difference.
      have hids := hsame hgen owner howner
      rw [hbound, ← hp, hownerBound, ← hids]
      refine (hown owner.locals).imp_right fun h => .inr ⟨h, hgen, owner, howner, ?_⟩
      rw [h]

/-- There is one bound that is `MadeUp`. -/
theorem MadeUp.unique {bound bound' : VarId} (h : MadeUp config outer globalIds bound)
    (h' : MadeUp config outer globalIds bound') : bound = bound' := by
  obtain ⟨_, _, owner, howner, rfl⟩ := h
  obtain ⟨_, _, owner', howner', rfl⟩ := h'
  obtain rfl := Option.some.inj (howner.symm.trans howner')
  rfl

/-- The last id is among the globals exactly if it is their maximum. -/
private theorem last_eq_of_max? {bound : VarId} (h : globalIds.max? = some bound) :
    VarId.last ∈ globalIds ↔ bound = VarId.last := by
  obtain ⟨hmem, hmax⟩ := List.max?_eq_some_iff.1 h
  constructor
  · intro hlast
    have hle := UInt32.le_iff_toNat_le.1 (hmax _ hlast)
    have hlt := bound.toNat_lt
    have hval : VarId.last.toNat = 4294967295 := rfl
    exact UInt32.toNat_inj.1 (by omega)
  · rintro rfl
    exact hmem

section

variable {bound : VarId}
  (hbound : globalIds.max? = some bound ∨ MadeUp config outer globalIds bound)

include hbound

/-- A bound that is `MadeUp` is the bound. -/
private theorem MadeUp.eq_bound {bound' : VarId} (h : MadeUp config outer globalIds bound') :
    bound = bound' := by
  obtain hmax | hb := hbound
  · rw [h.1] at hmax
    cases hmax
  · exact hb.unique h

/-- Where there are locals, there is an `OverlapCause` if the least of them is not above the
    bound. -/
private theorem overlapCause_iff_le {lo : VarId} (hmin : localIds.min? = some lo) :
    OverlapCause config outer globalIds localIds ↔ lo ≤ bound := by
  obtain ⟨hlo, hlow⟩ := List.min?_eq_some_iff.1 hmin
  constructor
  · -- One case for each cause.
    rintro (⟨g, hg, l, hl, hle⟩ | ⟨hb, l, hl, hle⟩ | ⟨hnone, _, _⟩)
    · obtain hmax | hb := hbound
      · exact (overlapping_iff hmax hmin).1 ⟨g, hg, l, hl, hle⟩
      · rw [hb.1] at hg
        cases hg
    · rw [MadeUp.eq_bound hbound hb]
      exact UInt32.le_trans (hlow l hl) hle
    · exact absurd hnone (List.ne_nil_of_mem hlo)
  · intro hle
    obtain hmax | hb := hbound
    · exact .ids ((overlapping_iff hmax hmin).2 hle)
    · exact .madeUp hb ⟨lo, hlo, hle⟩

/-- Without locals only the last id as bound leaves no room for them. -/
private theorem overlapCause_nil_iff :
    OverlapCause config outer globalIds [] ↔
      config.generates.locals = false ∧ bound = VarId.last := by
  constructor
  · -- The first two causes name a local, so the third one it is.
    rintro (⟨_, _, l, hl, _⟩ | ⟨_, l, hl, _⟩ | ⟨_, hinherits, h⟩)
    · cases hl
    · cases hl
    · refine ⟨hinherits, ?_⟩
      obtain hlast | hb := h
      · obtain hmax | hb := hbound
        · exact (last_eq_of_max? hmax).1 hlast
        · rw [hb.1] at hlast
          cases hlast
      · exact MadeUp.eq_bound hbound hb
  · rintro ⟨hinherits, rfl⟩
    exact .last rfl hinherits (hbound.imp_left fun hmax => (last_eq_of_max? hmax).2 rfl)

/-- Where there is a bound on globals, real or `MadeUp`, there is an `OverlapCause` for what is not
    above it. -/
private theorem overlapCause_iff :
    OverlapCause config outer globalIds localIds ↔
      (config.generates.locals = true → localIds ≠ []) ∧ localIds.min?.getD bound.next ≤ bound := by
  cases hmin : localIds.min? with
  | some lo =>
    have hne : localIds ≠ [] := List.ne_nil_of_mem (List.min?_eq_some_iff.1 hmin).1
    rw [Option.getD_some, and_iff_right fun _ => hne]
    exact overlapCause_iff_le hbound hmin
  | none =>
    -- Without locals their bound is the id after the bound on globals.
    obtain rfl := List.min?_eq_none_iff.1 hmin
    rw [Option.getD_none, VarId.next_le_iff, overlapCause_nil_iff hbound]
    simp

end

/-- A scope that generates its empty lists of globals has no `OverlapCause`. -/
private theorem not_overlapCause (hgen : config.generates.globals = true) :
    ¬OverlapCause config outer [] localIds := by
  have hmadeUp {bound} (h : MadeUp config outer [] bound) : False :=
    Bool.false_ne_true (h.2.1.symm.trans hgen)
  rintro (⟨g, hg, _⟩ | ⟨hb, _⟩ | ⟨_, _, hlast | hb⟩)
  · cases hg
  · exact hmadeUp hb
  · cases hlast
  · exact hmadeUp hb

/-- What has an `OverlapCause` is `Overlapping` exactly if there are both globals and locals. -/
private theorem OverlapCause.overlapping_iff (h : OverlapCause config outer globalIds localIds) :
    Overlapping globalIds localIds ↔ globalIds ≠ [] ∧ localIds ≠ [] := by
  constructor
  · rintro ⟨g, hg, l, hl, _⟩
    exact ⟨List.ne_nil_of_mem hg, List.ne_nil_of_mem hl⟩
  · rintro ⟨hglobals, hlocals⟩
    cases h with
    | ids h => exact h
    | madeUp hb => exact absurd hb.1 hglobals
    | last hnone => exact absurd hnone hlocals

/-- In `Nested` scopes an overlap is reported for a scope, created with the globals that it sees,
    exactly if its lists can be resolved and there is an `OverlapCause`.  The ids are `Overlapping`
    then exactly if the scope has both globals and locals. -/
theorem overlap_reported_iff (hnested : Nested outer)
    (hsame : config.generates.globals = false → ∀ owner, owner? outer = some owner →
      globalIds = owner.globals) :
    ((∃ hi lo, Catalog.create config names globalIds localIds (outer.map Prod.fst) =
      .error (.rangesOverlap hi lo)) ↔
      (outer = [] → config.generates = {}) ∧ OverlapCause config outer globalIds localIds) ∧
    (OverlapCause config outer globalIds localIds →
      (Overlapping globalIds localIds ↔ globalIds ≠ [] ∧ localIds ≠ [])) := by
  refine ⟨?_, OverlapCause.overlapping_iff⟩
  constructor
  · rintro ⟨hi, lo, h⟩
    obtain ⟨s, hs, _, hempty, rfl, rfl, hle⟩ := create_eq_rangesOverlap_iff.1 h
    refine ⟨fun houter => resolveScope_succeeds_iff.1 ⟨s, hs⟩ (by rw [houter]; rfl), ?_⟩
    obtain ⟨hglobals, hlocals⟩ := emptyLists?_eq_none_iff.1 hempty
    rw [(resolveScope_bound hs).1] at hglobals hlocals
    -- Empty lists that the scope generates would have settled the matter without bounds.
    rcases resolveScope_bound_cases hnested hsame hs with hmax | ⟨hnil, hgen⟩ | hmadeUp
    · exact (overlapCause_iff (.inl hmax)).2 ⟨hlocals, hle⟩
    · exact absurd hnil (hglobals hgen)
    · exact (overlapCause_iff (.inr hmadeUp)).2 ⟨hlocals, hle⟩
  · rintro ⟨houter, hcause⟩
    obtain ⟨s, hs⟩ : Succeeds (resolveScope config names globalIds localIds (outer.map Prod.fst)) :=
      resolveScope_succeeds_iff.2 fun h => houter (List.map_eq_nil_iff.1 h)
    -- There is a bound, since a scope that generates its empty lists has no overlap.
    have hbound : globalIds.max? = some s.globalsBound ∨
        MadeUp config outer globalIds s.globalsBound := by
      rcases resolveScope_bound_cases hnested hsame hs with hmax | ⟨rfl, hgen⟩ | hmadeUp
      · exact .inl hmax
      · exact absurd hcause (not_overlapCause hgen)
      · exact .inr hmadeUp
    obtain ⟨hlocals, hle⟩ := (overlapCause_iff hbound).1 hcause
    have hbelow : ∀ id ∈ globalIds, id ≤ s.globalsBound := by
      intro id hid
      obtain hmax | hmadeUp := hbound
      · exact (List.max?_eq_some_iff.1 hmax).2 id hid
      · rw [hmadeUp.1] at hid
        cases hid
    have hempty : emptyLists? s globalIds localIds = none := by
      rw [emptyLists?_eq_none_iff, (resolveScope_bound hs).1]
      refine ⟨fun hgen hnil => ?_, hlocals⟩
      rw [hnil] at hcause
      exact not_overlapCause hgen hcause
    exact ⟨_, _, create_eq_rangesOverlap_iff.2 ⟨s, hs, hbelow, hempty, rfl, rfl, hle⟩⟩

end

/-! ## Procedures of a program -/

/-- The settings of a scope that generates nothing and cites everything. -/
def citingConfig : Config := { generates := ⟨false, false, false, false⟩ }

/-- A scope that generates nothing, inside the scope of a program with the globals `globalIds`. -/
def scopesAround (globalIds : List VarId) : Except Error (List (Scope × ScopeIds)) := do
  let program ← Catalog.create {} {} globalIds [] []
  let between ← Catalog.create citingConfig {} globalIds [] [program.scope]
  return [(between.scope, ⟨globalIds, []⟩), (program.scope, ⟨globalIds, []⟩)]

/-- The scopes of `scopesAround` are `Nested`, and the program is the `owner?` of the globals. -/
private theorem nested_scopesAround {globalIds : List VarId} {outer : List (Scope × ScopeIds)}
    (h : scopesAround globalIds = .ok outer) :
    Nested outer ∧ owner? outer = some ⟨globalIds, []⟩ := by
  obtain ⟨program, hprogram, h⟩ := bind_eq_ok_iff.1 h
  obtain ⟨between, hbetween, h⟩ := bind_eq_ok_iff.1 h
  obtain rfl := Except.ok.inj h
  refine ⟨.cons (.cons .nil hprogram rfl) hbetween rfl, ?_⟩
  obtain ⟨s, _, hs, _, _, rfl⟩ := Catalog.create_eq_ok hprogram
  obtain ⟨s', _, hs', _, _, rfl⟩ := Catalog.create_eq_ok hbetween
  simp [owner?, (resolveScope_bound hs).1, (resolveScope_bound hs').1, citingConfig]

/-- Two scopes inside the program (`scopesAround`), a procedure is refused if a local has the id of
    a global, and not if its locals come after the globals. -/
theorem overlap_reported_two_scopes_in :
    ∃ outer, scopesAround [1, 2] = .ok outer ∧
      (∃ hi lo, Catalog.create (Config.forProcedure {} "proc") {} [1, 2] [2, 9]
        (outer.map Prod.fst) = .error (.rangesOverlap hi lo)) ∧
      ¬∃ hi lo, Catalog.create (Config.forProcedure {} "proc") {} [1, 2] [7, 9]
        (outer.map Prod.fst) = .error (.rangesOverlap hi lo) := by
  obtain ⟨outer, houter⟩ : ∃ outer, scopesAround [1, 2] = .ok outer := ⟨_, rfl⟩
  obtain ⟨hnested, howner⟩ := nested_scopesAround houter
  have hsame : (Config.forProcedure {} "proc").generates.globals = false →
      ∀ owner, owner? outer = some owner → [1, 2] = owner.globals := by
    intro _ owner h
    obtain rfl := Option.some.inj (howner.symm.trans h)
    rfl
  -- There are scopes around the procedure, as one of them has the globals.
  have hne : outer = [] → (Config.forProcedure {} "proc").generates = {} := by
    rintro rfl
    cases howner
  refine ⟨outer, houter, ?_, ?_⟩
  · exact (overlap_reported_iff hnested hsame).1.2 ⟨hne, .ids ⟨2, by simp, 2, by simp, by decide⟩⟩
  · intro h
    obtain ⟨hiff, hoverlapping⟩ := overlap_reported_iff hnested hsame
    obtain ⟨g, hg, l, hl, hle⟩ := (hoverlapping (hiff.1 h).2).2 ⟨by simp, by simp⟩
    revert hle
    simp only [List.mem_cons, List.not_mem_nil, or_false] at hg hl
    rcases hg with rfl | rfl <;> rcases hl with rfl | rfl <;> decide

/-- A procedure with a local at the first id is refused inside a program without globals, and a
    scope without locals is refused inside a program with a global at `VarId.last`.  No ids are
    `Overlapping`. -/
theorem overlap_reported_without_ids :
    (∃ program, Catalog.create {} {} [] [] [] = .ok program ∧
      Nested [(program.scope, ⟨[], []⟩)] ∧ owner? [(program.scope, ⟨[], []⟩)] = some ⟨[], []⟩ ∧
      Catalog.create (Config.forProcedure {} "proc") {} [] [0] [program.scope] =
        .error (.rangesOverlap 0 0)) ∧
    (∃ program, Catalog.create {} {} [VarId.last] [] [] = .ok program ∧
      Nested [(program.scope, ⟨[VarId.last], []⟩)] ∧
      owner? [(program.scope, ⟨[VarId.last], []⟩)] = some ⟨[VarId.last], []⟩ ∧
      Catalog.create citingConfig {} [VarId.last] [] [program.scope] =
        .error (.rangesOverlap VarId.last VarId.last)) ∧
    ¬Overlapping [] [0] ∧ ¬Overlapping [VarId.last] [] := by
  refine ⟨⟨_, rfl, @Nested.cons {} {} _ _ _ _ .nil rfl rfl, rfl, rfl⟩,
    ⟨_, rfl, @Nested.cons {} {} _ _ _ _ .nil rfl rfl, rfl, rfl⟩, ?_, ?_⟩
  · rintro ⟨g, hg, _⟩
    cases hg
  · rintro ⟨_, _, l, hl, _⟩
    cases hl

end Warrant
