import Warrant.Proofs.Outcomes
import Warrant.Scope.Creation

/-!
# Globals and locals do not meet

Creating a catalog derives the lemma that no id belongs to a global and to a local.  The lemma holds
either because this scope generates a pair of lists that is empty, or because all ids of globals are
at most `Scope.globalsBound` and all ids of locals lie above.  The bound may be inherited: a scope
that does not generate globals cites the lemma `globals_max` of the nearest scope around it that
does.

* `disjointnessLemmas_eq_ok`: when the lemmas can be derived, and what they are.
* `Delegated.globalsMax`: in a chain of scopes that were created inside each other, the cited lemma
  is about the same lists and states the same bound.
-/

namespace Warrant

open Vocabulary

/-! ## Bounds -/

/-- No local has an id below `localsBound`. -/
private theorem localsBound_le {s : Scope} {localIds : List VarId} {id : VarId}
    (hid : id ∈ localIds) : localsBound s localIds ≤ id := by
  unfold localsBound
  cases hmin : localIds.min? with
  | none =>
    rw [List.min?_eq_none_iff] at hmin
    rw [hmin] at hid
    cases hid
  | some low => exact (List.min?_eq_some_iff.1 hmin).2 id hid

instance : Std.LawfulOrderMax VarId where
  max_eq_or a b := by
    show (if a ≤ b then b else a) = a ∨ (if a ≤ b then b else a) = b
    split <;> simp
  max_le_iff a b c := by
    show (if a ≤ b then b else a) ≤ c ↔ a ≤ c ∧ b ≤ c
    split
    · next hab => exact ⟨fun h => ⟨UInt32.le_trans hab h, h⟩, And.right⟩
    · next hab => exact ⟨fun h => ⟨h, UInt32.le_trans (UInt32.le_of_lt (UInt32.not_le.1 hab)) h⟩,
        And.left⟩

/-- No global has an id above `ownGlobalsBound`. -/
private theorem le_ownGlobalsBound {globalIds : List VarId} (localIds : List VarId) {id : VarId}
    (hid : id ∈ globalIds) : id ≤ ownGlobalsBound globalIds localIds := by
  unfold ownGlobalsBound
  cases hmax : globalIds.max? with
  | none =>
    rw [List.max?_eq_none_iff] at hmax
    rw [hmax] at hid
    cases hid
  | some high => exact (List.max?_eq_some_iff.1 hmax).2 id hid

/-! ## What the lemmas say -/

/-- The ids in two lists of declarations, as a term: `set (map fst (list @ list'))`. -/
def idSet (list list' : String) : Term :=
  .app (.ident "set")
    [.app (.ident "map") [.ident "fst", .nary .append [.ident list, .ident list']]]

/-- The scope has a lemma `name` that all ids in two lists compare with `bound` by `op`:
    `∀ x. x ∈ set (map fst (list @ list')) ⟶ x op bound`. -/
def Scope.StatesBound (s : Scope) (name list list' : String) (op : Op) (bound : VarId) : Prop :=
  ∃ l, s.helpers.find? (·.name = name) = some l ∧
    l.statement = .quant .all ["x"] none
      (.nary .implies
        [.nary .elem [.ident "x", idSet list list'],
         .nary op [.ident "x", .lit (.nat bound.toNat)]])

/-- The scope has the lemma `globals_max`: no id of a constant or global is above `bound`. -/
def Scope.StatesGlobalsMax (s : Scope) (bound : VarId) : Prop :=
  s.StatesBound "globals_max" s.consts s.globals .le bound

/-- The scope has the lemma `locals_min`: no id of a parameter or local is below `bound`. -/
def Scope.StatesLocalsMin (s : Scope) (bound : VarId) : Prop :=
  s.StatesBound "locals_min" s.params s.locals .ge bound

/-- The statement of `globals_locals_disj`: the ids of constants and globals and those of
    parameters and locals have an empty intersection. -/
def Scope.idsDisjoint (s : Scope) : Term :=
  .nary .eq [.nary .inter [idSet s.consts s.globals, idSet s.params s.locals], .set []]

/-- The script that unfolds the definitions of two lists. -/
def unfoldDefs (list list' : String) : Script :=
  ["unfolding " ++ list ++ "_def " ++ list' ++ "_def", "by simp"]

/-- The script that derives disjointness from the lemmas about the bounds. -/
def citeBounds (localsMin globalsMax : String) : Script :=
  ["using " ++ localsMin ++ " " ++ globalsMax, "by fastforce"]

/-- What the script for disjointness rests on. -/
inductive Separation (s : Scope) (enclosing : List Scope) (globalIds localIds : List VarId) :
    Script → Prop where
  /-- The scope generates `consts` and `globals`, and they are empty. -/
  | noGlobals (hgen : s.generates.globals = true) (hids : globalIds = []) :
      Separation s enclosing globalIds localIds (unfoldDefs s.consts s.globals)
  /-- The scope generates `params` and `locals`, and they are empty. -/
  | noLocals (hgen : s.generates.locals = true) (hids : localIds = []) :
      Separation s enclosing globalIds localIds (unfoldDefs s.params s.locals)
  /-- The bounds on both sides are apart. -/
  | bounds (globalsMax : String) (hlt : s.globalsBound < localsBound s localIds)
      (hcite : globalsMaxLemma (s :: enclosing) = .ok globalsMax) :
      Separation s enclosing globalIds localIds (citeBounds s.localsMinLemma globalsMax)

/-- The pair of lists that `emptyLists?` finds is one that `Separation` can rest on. -/
private theorem separation_of_emptyLists? {s : Scope} (enclosing : List Scope)
    {globalIds localIds : List VarId} {lists : String × String}
    (h : emptyLists? s globalIds localIds = some lists) :
    Separation s enclosing globalIds localIds (unfoldLists lists) := by
  unfold emptyLists? at h
  split at h
  · next hg =>
    rw [Bool.and_eq_true, List.isEmpty_iff] at hg
    obtain rfl := Option.some.inj h
    exact .noGlobals hg.1 hg.2
  · split at h
    · next hl =>
      rw [Bool.and_eq_true, List.isEmpty_iff] at hl
      obtain rfl := Option.some.inj h
      exact .noLocals hl.1 hl.2
    · cases h

/-- `emptyLists?` finds nothing only if neither pair of lists is generated and empty. -/
private theorem emptyLists?_eq_none {s : Scope} {globalIds localIds : List VarId}
    (h : emptyLists? s globalIds localIds = none) :
    ¬(s.generates.globals = true ∧ globalIds = []) ∧
      ¬(s.generates.locals = true ∧ localIds = []) := by
  unfold emptyLists? at h
  split at h
  · cases h
  · next hg =>
    split at h
    · cases h
    · next hl =>
      rw [Bool.and_eq_true, List.isEmpty_iff] at hg hl
      exact ⟨hg, hl⟩

/-- What `disjointnessLemmas` rests on, and what it gives: the bounds that the scope states, and
    `globals_locals_disj` with a script that a `Separation` stands behind. -/
theorem disjointnessLemmas_eq_ok {s : Scope} {enclosing : List Scope}
    {globalIds localIds : List VarId} {ls : List Lemma}
    (h : disjointnessLemmas s enclosing globalIds localIds = .ok ls) :
    (∀ id ∈ globalIds, id ≤ s.globalsBound) ∧
      ∃ script, Separation s enclosing globalIds localIds script ∧
        ls = (if s.generates.globals then boundLemmas .globals s s.globalsBound else []) ++
          boundLemmas .locals s (localsBound s localIds) ++
          [{ name := disjointName, statement := disjointStatement s, script }] := by
  unfold disjointnessLemmas at h
  cases hfind : globalIds.find? fun id => !(id ≤ s.globalsBound) with
  | some id =>
    rw [hfind] at h
    cases h
  | none =>
    rw [hfind] at h
    -- The first check: no id is above the bound.
    have hle : ∀ id ∈ globalIds, id ≤ s.globalsBound := by
      intro id hid
      have hnot := List.find?_eq_none.1 hfind id hid
      simpa using hnot
    refine ⟨hle, ?_⟩
    simp only [pure_bind] at h
    split at h
    · next lists hempty =>
      exact ⟨_, separation_of_emptyLists? enclosing hempty, (Except.ok.inj h).symm⟩
    · -- Without such a pair the bounds have to be apart.
      next hempty =>
      split at h
      · cases h
      · next hlt =>
        obtain ⟨globalsMax, hcite, h⟩ := bind_eq_ok_iff.1 h
        exact ⟨_, .bounds globalsMax (UInt32.not_le.1 hlt) hcite, (Except.ok.inj h).symm⟩

/-- `disjointnessLemmas` succeeds exactly if no id of a global is above `globalsBound` and there is
    a `Separation`. -/
private theorem disjointnessLemmas_succeeds_iff (s : Scope) (enclosing : List Scope)
    (globalIds localIds : List VarId) :
    Succeeds (disjointnessLemmas s enclosing globalIds localIds) ↔
      (∀ id ∈ globalIds, id ≤ s.globalsBound) ∧
        ∃ script, Separation s enclosing globalIds localIds script := by
  constructor
  · intro ⟨ls, hls⟩
    obtain ⟨hle, script, hsep, _⟩ := disjointnessLemmas_eq_ok hls
    exact ⟨hle, script, hsep⟩
  · intro ⟨hle, script, hsep⟩
    have hfind : globalIds.find? (fun id => !(id ≤ s.globalsBound)) = none :=
      List.find?_eq_none.2 fun id hid => by simpa using hle id hid
    unfold disjointnessLemmas
    rw [hfind]
    cases hempty : emptyLists? s globalIds localIds with
    | some lists => exact ⟨_, rfl⟩
    | none =>
      -- No pair of lists is empty, so what is given are bounds that are apart.
      obtain ⟨hglobals, hlocals⟩ := emptyLists?_eq_none hempty
      cases hsep with
      | noGlobals hgen hids => exact absurd ⟨hgen, hids⟩ hglobals
      | noLocals hgen hids => exact absurd ⟨hgen, hids⟩ hlocals
      | bounds globalsMax hlt hcite =>
        simp only [if_neg (UInt32.not_le.2 hlt), hcite]
        exact ⟨_, rfl⟩

/-! ## Created scopes -/

/-- A scope that has all lists itself: what `resolveScope` gives where everything is generated. -/
def ownScope (config : Config) (names : ListNames) (globalIds localIds : List VarId) : Scope where
  theory := config.theory
  names := names
  generates := config.generates
  params := qualified config.theory names.params
  locals := qualified config.theory names.locals
  consts := qualified config.theory names.consts
  globals := qualified config.theory names.globals
  functions := qualified config.theory names.funcs
  axioms := qualified config.theory names.axioms
  globalsBound := ownGlobalsBound globalIds localIds
  memberNames := { spacer := config.spacer }
  lookupNames := { spacer := config.spacer }

/-- A scope that takes what it does not generate from the scope `p` around it. -/
def delegatingScope (config : Config) (names : ListNames) (globalIds localIds : List VarId)
    (p : Scope) : Scope :=
  let own := ownScope config names globalIds localIds
  { own with
    params := if config.generates.locals then own.params else p.params
    locals := if config.generates.locals then own.locals else p.locals
    consts := if config.generates.globals then own.consts else p.consts
    globals := if config.generates.globals then own.globals else p.globals
    globalsBound := if config.generates.globals then own.globalsBound else p.globalsBound
    functions := if config.generates.functions then own.functions else p.functions
    axioms := if config.generates.axioms then own.axioms else p.axioms }

section

variable {config : Config} {names : ListNames} {globalIds localIds : List VarId}
  {enclosing : List Scope} {s : Scope}

/-- Inside another scope `resolveScope` succeeds, with `delegatingScope`. -/
theorem resolveScope_cons (p : Scope) (outer : List Scope) :
    resolveScope config names globalIds localIds (p :: outer) =
      .ok (delegatingScope config names globalIds localIds p) := by
  unfold resolveScope delegatingScope
  -- Each group is resolved by itself, so every combination of flags evaluates.
  cases config.generates.locals <;> cases config.generates.globals <;>
    cases config.generates.functions <;> cases config.generates.axioms <;> rfl

/-- A scope that generates all groups needs no scope around it: it is `ownScope`. -/
theorem resolveScope_nil (h : config.generates = {}) :
    resolveScope config names globalIds localIds [] =
      .ok (ownScope config names globalIds localIds) := by
  unfold resolveScope ownScope
  rw [h]
  rfl

/-- Without a scope around it `resolveScope` succeeds only if all groups are generated. -/
theorem generates_of_resolveScope_nil
    (h : resolveScope config names globalIds localIds [] = .ok s) : config.generates = {} := by
  obtain ⟨theory, imports, spacer, locale, functions, axioms, globals, locals⟩ := config
  cases locals <;> cases globals <;> cases functions <;> cases axioms <;> first | rfl | cases h

/-- A scope from `resolveScope` generates all groups itself or delegates to the scope around it. -/
theorem resolveScope_cases (h : resolveScope config names globalIds localIds enclosing = .ok s) :
    (config.generates = {} ∧ s = ownScope config names globalIds localIds) ∨
      ∃ p outer, enclosing = p :: outer ∧
        s = delegatingScope config names globalIds localIds p := by
  cases enclosing with
  | nil =>
    have hgen := generates_of_resolveScope_nil h
    rw [resolveScope_nil hgen] at h
    exact .inl ⟨hgen, (Except.ok.inj h).symm⟩
  | cons p outer =>
    rw [resolveScope_cons] at h
    exact .inr ⟨p, outer, rfl, (Except.ok.inj h).symm⟩

/-- A scope either generates globals and has its own `globalsBound`, or takes both from the scope
    around it. -/
private theorem resolveScope_globals
    (h : resolveScope config names globalIds localIds enclosing = .ok s) :
    s.generates.globals = true ∨
      s.generates.globals = false ∧ ∃ p outer, enclosing = p :: outer ∧
        s.consts = p.consts ∧ s.globals = p.globals ∧ s.globalsBound = p.globalsBound := by
  obtain ⟨hgen, rfl⟩ | ⟨p, outer, rfl, rfl⟩ := resolveScope_cases h
  · exact .inl (congrArg Groups.globals hgen)
  · cases hg : config.generates.globals with
    | true => exact .inl hg
    | false => exact .inr ⟨hg, p, outer, rfl, by simp [delegatingScope, hg]⟩

/-- The `helpers` of a new scope: the bounds that it states, disjointness and, with functions,
    well-formedness. -/
def helperLemmas (s : Scope) (low : VarId) (script : Script) : List Lemma :=
  (if s.generates.globals then boundLemmas .globals s s.globalsBound else []) ++
      boundLemmas .locals s low ++
    [{ name := disjointName, statement := disjointStatement s, script }] ++
    (if s.generates.functions then wellFormednessLemmas s else [])

/-- What `Catalog.create` gives, and the `Separation` that its disjointness rests on. -/
theorem Catalog.create_eq_ok {c : Catalog}
    (h : Catalog.create config names globalIds localIds enclosing = .ok c) :
    ∃ s script, resolveScope config names globalIds localIds enclosing = .ok s ∧
      (∀ id ∈ globalIds, id ≤ s.globalsBound) ∧ Separation s enclosing globalIds localIds script ∧
      c = ⟨{ s with helpers := helperLemmas s (localsBound s localIds) script }, enclosing⟩ := by
  obtain ⟨s, hs, h⟩ := bind_eq_ok_iff.1 h
  obtain ⟨ls, hls, h⟩ := bind_eq_ok_iff.1 h
  obtain ⟨hle, script, hsep, rfl⟩ := disjointnessLemmas_eq_ok hls
  exact ⟨s, script, hs, hle, hsep, (Except.ok.inj h).symm⟩

/-- If everything is generated, `Catalog.create` succeeds without a scope around it exactly if the
    greatest id of a global is below the least id of a local, as far as there are such. -/
theorem Catalog.create_nil_succeeds_iff (h : config.generates = {}) :
    Succeeds (Catalog.create config names globalIds localIds []) ↔
      ∀ hi ∈ globalIds.max?, ∀ lo ∈ localIds.min?, hi < lo := by
  have hcreate : Succeeds (Catalog.create config names globalIds localIds []) ↔
      Succeeds (disjointnessLemmas (ownScope config names globalIds localIds)
        [] globalIds localIds) := by
    rw [Catalog.create, resolveScope_nil h]
    exact succeeds_bind_pure_iff
  -- The bound is the greatest id of a global, so the first check never fails.
  have hle : ∀ id ∈ globalIds, id ≤ (ownScope config names globalIds localIds).globalsBound :=
    fun id hid => le_ownGlobalsBound localIds hid
  rw [hcreate, disjointnessLemmas_succeeds_iff, and_iff_right hle]
  have hgen : (ownScope config names globalIds localIds).generates = {} := h
  have hglobals : (ownScope config names globalIds localIds).generates.globals = true :=
    congrArg Groups.globals hgen
  have hlocals : (ownScope config names globalIds localIds).generates.locals = true :=
    congrArg Groups.locals hgen
  constructor
  · intro ⟨script, hsep⟩ hi hhi lo hlo
    cases hsep with
    | noGlobals _ hids =>
      rw [hids] at hhi
      cases hhi
    | noLocals _ hids =>
      rw [hids] at hlo
      cases hlo
    | bounds globalsMax hlt _ =>
      -- There are ids on both sides, so the bounds are these ids.
      have hbound : ownGlobalsBound globalIds localIds <
          localsBound (ownScope config names globalIds localIds) localIds := hlt
      rwa [ownGlobalsBound, localsBound, Option.mem_def.1 hhi, Option.mem_def.1 hlo] at hbound
  · intro hlt
    cases hmax : globalIds.max? with
    | none => exact ⟨_, .noGlobals hglobals (List.max?_eq_none_iff.1 hmax)⟩
    | some hi =>
      cases hmin : localIds.min? with
      | none => exact ⟨_, .noLocals hlocals (List.min?_eq_none_iff.1 hmin)⟩
      | some lo =>
        -- There are ids on both sides, and the new scope itself has `globals_max`.
        refine ⟨_, .bounds (qualified config.theory globalsMaxName) ?_ ?_⟩
        · show ownGlobalsBound globalIds localIds <
              localsBound (ownScope config names globalIds localIds) localIds
          rw [ownGlobalsBound, localsBound, hmax, hmin]
          exact hlt hi hmax lo hmin
        · rw [globalsMaxLemma, nearest, hgen]
          rfl

end

/-- The lemma `globals_locals_disj` among `helperLemmas`. -/
theorem find?_disjointName (s : Scope) (low : VarId) (script : Script) :
    (helperLemmas s low script).find? (·.name = "globals_locals_disj") =
      some { name := "globals_locals_disj", statement := s.idsDisjoint, script } := by
  unfold helperLemmas
  cases s.generates.globals <;> rfl

/-- A new scope has the lemma `locals_min`, in the sense of `StatesLocalsMin`. -/
private theorem statesLocalsMin_helperLemmas (s : Scope) (low : VarId) (script : Script) :
    { s with helpers := helperLemmas s low script }.StatesLocalsMin low := by
  unfold Scope.StatesLocalsMin Scope.StatesBound helperLemmas
  cases s.generates.globals <;> exact ⟨_, rfl, rfl⟩

/-- A scope whose `helpers` are those of a new scope that generates globals has `globals_max`. -/
theorem statesGlobalsMax_of_helpers {s : Scope} {low : VarId} {script : Script}
    (hhelpers : s.helpers = helperLemmas s low script) (hgen : s.generates.globals = true) :
    s.StatesGlobalsMax s.globalsBound := by
  unfold Scope.StatesGlobalsMax Scope.StatesBound
  rw [hhelpers, helperLemmas, if_pos hgen]
  exact ⟨_, rfl, rfl⟩

/-! ## Chains of scopes -/

/-- A scope without what was registered in it. -/
def Scope.cleared (s : Scope) : Scope :=
  { s with members := [], constMembers := [], lookups := [], memberNames := {}, lookupNames := {} }

/-- Scopes that `Catalog.create` has made inside each other, the innermost first.  Declarations may
    have been registered since. -/
inductive Delegated : List Scope → Prop where
  | nil : Delegated []
  | cons {config : Config} {names : ListNames} {globalIds localIds : List VarId}
      {enclosing : List Scope} {c : Catalog} {s : Scope} (houter : Delegated enclosing)
      (hcreate : Catalog.create config names globalIds localIds enclosing = .ok c)
      (hs : s.cleared = c.scope.cleared) : Delegated (s :: enclosing)

/-- In a chain of scopes `globals_max` can always be cited.  It stands in a scope `g` of the chain,
    and is about the lists `consts` and `globals` and the bound of the innermost scope. -/
theorem Delegated.globalsMax {s : Scope} {enclosing : List Scope} (h : Delegated (s :: enclosing)) :
    ∃ g ∈ s :: enclosing,
      globalsMaxLemma (s :: enclosing) = .ok (g.qualify "globals_max") ∧
      g.StatesGlobalsMax s.globalsBound ∧ g.consts = s.consts ∧ g.globals = s.globals := by
  generalize hchain : s :: enclosing = chain at h
  induction h generalizing s enclosing with
  | nil => cases hchain
  | @cons config names globalIds localIds outer c s' houter hcreate hs ih =>
    obtain ⟨rfl, rfl⟩ := List.cons.inj hchain
    obtain ⟨base, script, hbase, _, _, rfl⟩ := Catalog.create_eq_ok hcreate
    -- Registration has changed none of the fields that matter here.
    have hgen : s.generates = base.generates := (congrArg Scope.generates hs :)
    have hconsts : s.consts = base.consts := (congrArg Scope.consts hs :)
    have hglobals : s.globals = base.globals := (congrArg Scope.globals hs :)
    have hbound : s.globalsBound = base.globalsBound := (congrArg Scope.globalsBound hs :)
    have hhelpers : s.helpers = helperLemmas base (localsBound base localIds) script :=
      (congrArg Scope.helpers hs :)
    have hsame : helperLemmas s (localsBound base localIds) script =
        helperLemmas base (localsBound base localIds) script :=
      (congrArg (helperLemmas · (localsBound base localIds) script) hs :)
    rcases resolveScope_globals hbase with hown | ⟨hown, p, outer', rfl, hpc, hpg, hpb⟩
    · -- The scope generates globals, so it is the one that is cited.
      have hown' : s.generates.globals = true := by rw [hgen]; exact hown
      refine ⟨s, List.mem_cons_self, ?_, ?_, rfl, rfl⟩
      · rw [globalsMaxLemma, nearest, if_pos hown']
        rfl
      · exact statesGlobalsMax_of_helpers (hhelpers.trans hsame.symm) hown'
    · -- The scope passes on what it got from the scope around it.
      have hown' : ¬s.generates.globals = true := by rw [hgen, hown]; exact Bool.false_ne_true
      obtain ⟨g, hg, hcite, hstates, hgc, hgg⟩ := ih rfl
      refine ⟨g, List.mem_cons_of_mem _ hg, ?_, ?_, ?_, ?_⟩
      · rw [globalsMaxLemma, nearest, if_neg hown']
        exact hcite
      · rw [hbound, hpb]
        exact hstates
      · rw [hgc, hconsts, hpc]
      · rw [hgg, hglobals, hpg]

/-- `Catalog.create` succeeds only if globals and locals do not meet, and then the lemma
    `globals_locals_disj` is justified.  Either its script cites the bounds: then the ids of globals
    go up to `globalsBound`, which is below the bound that `locals_min` states, which no local is
    below; and in a chain of scopes the cited `globals_max` states `globalsBound` of the scope's own
    lists.  Or the script unfolds `consts` and `globals`, or `params` and `locals`, which the scope
    generates and which have no ids. -/
theorem create_separates {config : Config} {names : ListNames} {globalIds localIds : List VarId}
    {enclosing : List Scope} {c : Catalog}
    (h : Catalog.create config names globalIds localIds enclosing = .ok c) :
    (∀ id ∈ globalIds, id ∉ localIds) ∧
      ∃ l, c.scope.helpers.find? (·.name = "globals_locals_disj") = some l ∧
        l.statement = c.scope.idsDisjoint ∧
        ((∃ globalsMax low,
            l.script =
              ["using " ++ c.scope.qualify "locals_min" ++ " " ++ globalsMax, "by fastforce"] ∧
            globalsMaxLemma c.chain = .ok globalsMax ∧ c.scope.StatesLocalsMin low ∧
            (∀ id ∈ globalIds, id ≤ c.scope.globalsBound) ∧ c.scope.globalsBound < low ∧
            (∀ id ∈ localIds, low ≤ id) ∧
            (Delegated enclosing → ∃ g ∈ c.chain, globalsMax = g.qualify "globals_max" ∧
              g.StatesGlobalsMax c.scope.globalsBound ∧
              g.consts = c.scope.consts ∧ g.globals = c.scope.globals)) ∨
          (l.script =
              ["unfolding " ++ c.scope.consts ++ "_def " ++ c.scope.globals ++ "_def", "by simp"] ∧
            c.scope.generates.globals = true ∧ globalIds = []) ∨
          (l.script =
              ["unfolding " ++ c.scope.params ++ "_def " ++ c.scope.locals ++ "_def", "by simp"] ∧
            c.scope.generates.locals = true ∧ localIds = [])) := by
  obtain ⟨s, script, hs, hle, hsep, hc⟩ := Catalog.create_eq_ok h
  have hdelegated (hd : Delegated enclosing) : Delegated (c.scope :: enclosing) := .cons hd h rfl
  subst hc
  cases hsep with
  | noGlobals hgen hids =>
    refine ⟨?_, _, find?_disjointName s _ _, rfl, .inr (.inl ⟨rfl, hgen, hids⟩)⟩
    intro id hg
    rw [hids] at hg
    cases hg
  | noLocals hgen hids =>
    refine ⟨?_, _, find?_disjointName s _ _, rfl, .inr (.inr ⟨rfl, hgen, hids⟩)⟩
    intro id _ hl
    rw [hids] at hl
    cases hl
  | bounds globalsMax hlt hcite =>
    refine ⟨?_, _, find?_disjointName s _ _, rfl,
      .inl ⟨globalsMax, localsBound s localIds, rfl, hcite, statesLocalsMin_helperLemmas s _ _,
        hle, hlt, fun id hid => localsBound_le hid, ?_⟩⟩
    · -- An id on both sides would be at most the one bound and at least the other.
      intro id hg hl
      have hbelow : id < localsBound s localIds := UInt32.lt_of_le_of_lt (hle id hg) hlt
      exact absurd (localsBound_le hl) (UInt32.not_le.2 hbelow)
    · intro hd
      obtain ⟨g, hg, hcite', hstates, hconsts, hglobals⟩ := (hdelegated hd).globalsMax
      exact ⟨g, hg, Except.ok.inj (hcite.symm.trans hcite'), hstates, hconsts, hglobals⟩

/-- A procedure inside a scope that generates nothing, inside the scope of a program with two
    globals. -/
def procedureTwoScopesIn : Except Error Catalog := do
  let program ← Catalog.create {} {} [1, 2] [] []
  let between ← Catalog.create { generates := ⟨false, false, false, false⟩ } {} [] [] program.chain
  Catalog.create (Config.forProcedure {} "proc") {} [1, 2] [7, 9] between.chain

/-- The locals of `procedureTwoScopesIn` lie above the bound that `globals_max` of the program's
    scope states. -/
theorem create_separates_two_scopes_in :
    ∃ c, procedureTwoScopesIn = .ok c ∧ (∀ id ∈ [(1 : VarId), 2], id ∉ [(7 : VarId), 9]) ∧
      (∃ l, c.scope.helpers.find? (·.name = "globals_locals_disj") = some l ∧
        l.statement = c.scope.idsDisjoint) ∧
      ∃ g ∈ c.chain, ∃ low, g.StatesGlobalsMax c.scope.globalsBound ∧
        c.scope.globalsBound < low ∧ c.scope.StatesLocalsMin low := by
  obtain ⟨c, hc⟩ : ∃ c, procedureTwoScopesIn = .ok c := ⟨_, rfl⟩
  obtain ⟨program, hprogram, h⟩ := bind_eq_ok_iff.1 hc
  obtain ⟨between, hbetween, h⟩ := bind_eq_ok_iff.1 h
  obtain ⟨_, _, _, _, _, rfl⟩ := Catalog.create_eq_ok hprogram
  obtain ⟨_, _, _, _, _, rfl⟩ := Catalog.create_eq_ok hbetween
  have hchain := Delegated.cons (Delegated.cons .nil hprogram rfl) hbetween rfl
  obtain ⟨hdisjoint, l, hl, hstatement, hscript⟩ := create_separates h
  rcases hscript with ⟨_, low, _, _, hlow, _, hlt, _, hcited⟩ | ⟨_, _, hids⟩ | ⟨_, _, hids⟩
  · obtain ⟨g, hg, _, hstates, _⟩ := hcited hchain
    exact ⟨c, hc, hdisjoint, ⟨l, hl, hstatement⟩, g, hg, low, hstates, hlt, hlow⟩
  · -- Both sides have ids, so no definition is unfolded.
    cases hids
  · cases hids

end Warrant
