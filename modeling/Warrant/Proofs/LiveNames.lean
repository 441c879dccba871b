import Mathlib.Data.List.Infix
import Mathlib.Data.List.Nodup
import Warrant.Proofs.NameSupplies

/-!
# Names in scopes

A supply keeps names in a global table and in the tables of the open scopes.  A request for a global
name looks at the global table only, a request for a local name at the scopes only, unless none is
open.  What it does not find it gives, in the global table or in the innermost scope, as a name that
is in no table.

* `tables`, `nameAt`: the names of keys at each place.
* `Effect`: what a request does to the tables; `step_effect` says that every request has one of
  these effects.
* `Sound`: no name is held twice, and no key holds names in two scopes; `Sound.run` says that it
  always holds.
* `live_names_distinct`: what is held at any time, and what is handed out.
* `later_answer_iff`: when a key that holds a name gets it again.
-/

namespace Warrant.NameSupply

variable {κ : Type}

/-! ## Tables -/

/-- The tables of names: `global`, then those of the open `scopes` from the outermost inwards. -/
def tables (s : NameSupply κ) : List (List (κ × String)) := s.global :: s.scopes.reverse

/-- There is one of `tables` for each open scope, and the global one. -/
private theorem length_tables (s : NameSupply κ) : s.tables.length = s.scopes.length + 1 := by
  simp [tables]

/-- The names in `live` are those of all `tables`. -/
private theorem live_perm (s : NameSupply κ) : s.live.Perm (s.tables.flatten.map Prod.snd) := by
  have hscopes : (s.scopes.flatMap (List.map Prod.snd)).Perm
      (s.scopes.reverse.flatMap (List.map Prod.snd)) :=
    (List.reverse_perm s.scopes).symm.flatMap_right _
  rw [tables, List.flatten_cons, List.map_append, List.map_flatten, ← List.flatMap_def]
  exact hscopes.append_left _

/-- A name is `live` if one of the `tables` has it. -/
theorem mem_live_iff {s : NameSupply κ} {n : String} :
    n ∈ s.live ↔ ∃ table ∈ s.tables, n ∈ table.map Prod.snd := by
  rw [s.live_perm.mem_iff, List.map_flatten, List.mem_flatten]
  simp

/-- A new entry of one table is a new entry of all together. -/
private theorem flatten_insert_perm (outer inner : List (List (κ × String)))
    (table : List (κ × String)) (e : κ × String) :
    (outer ++ (e :: table) :: inner).flatten.Perm (e :: (outer ++ table :: inner).flatten) := by
  rw [List.flatten_append, List.flatten_append, List.flatten_cons, List.flatten_cons,
    List.cons_append]
  exact List.perm_middle

/-- No name is held twice in `tables`, and no key holds two names in the global table or two in the
    scopes. -/
structure Sound (s : NameSupply κ) : Prop where
  names : (s.tables.flatten.map Prod.snd).Nodup
  globalKeys : ∀ table ∈ s.tables.head?, (table.map Prod.fst).Nodup
  localKeys : (s.tables.tail.flatten.map Prod.fst).Nodup

/-- A new supply is `Sound`, as it holds nothing. -/
private theorem sound_empty (spacer : String) : ({ spacer } : NameSupply κ).Sound :=
  ⟨.nil, by simp [tables], .nil⟩

/-- The keys of each of the `tables` are different. -/
theorem Sound.keys {s : NameSupply κ} (hs : s.Sound) {table : List (κ × String)}
    (h : table ∈ s.tables) : (table.map Prod.fst).Nodup := by
  have hcases : s.tables = s.global :: s.tables.tail := rfl
  rw [hcases] at h
  -- The global table is the first one; the others have different keys even together.
  obtain rfl | h := List.mem_cons.1 h
  · exact hs.globalKeys _ rfl
  · have hkeys := hs.localKeys
    rw [List.map_flatten, List.nodup_flatten] at hkeys
    exact hkeys.1 _ (List.mem_map_of_mem h)

/-- The number that `fresh` ends a name with is at most the number of names that are `live`. -/
private theorem fresh_number (s : NameSupply κ) (base : String) :
    s.fresh base = base ∨ ∃ i ≤ s.live.length, s.fresh base = base ++ s.spacer ++ toString i := by
  rcases s.fresh_cases base with ⟨_, heq⟩ | ⟨_, i, heq, _, hbelow⟩
  · exact .inl heq
  · exact .inr ⟨i, le_length_of_candidates_mem
      (fun _ _ => numbered_injective (base ++ s.spacer)) hbelow, heq⟩

/-- The key that a `Request` asks about. -/
def Request.key? : Request κ → Option κ
  | .name key _ | .localName key _ => some key
  | .openScope | .closeScope => none

/-- Whether a `Request` for a name looks at the `global` table. -/
def asksGlobal (s : NameSupply κ) : Request κ → Bool
  | .name .. => true
  | .localName .. => s.scopes.isEmpty
  | .openScope | .closeScope => false

section

variable [DecidableEq κ] {s s' : NameSupply κ} {r : Request κ} {key key' : κ} {n : String}
  {place place' : Nat}

/-- The name that `key` holds at a place: in the global table at place 0, and in the scope with
    `depth` scopes around it at place `depth + 1`. -/
def nameAt (s : NameSupply κ) (place : Nat) (key : κ) : Option String :=
  (s.tables[place]?).bind (·.lookup key)

/-- The name that a `Request` about `key` finds where it looks. -/
def found? (s : NameSupply κ) (r : Request κ) (key : κ) : Option String :=
  if s.asksGlobal r then s.global.lookup key else s.scopes.findSome? (·.lookup key)

/-! ## What requests do -/

/-- What a `Request` does: the answer, and the `tables` afterwards. -/
inductive Effect (s : NameSupply κ) (r : Request κ) :
    Option String → List (List (κ × String)) → Prop where
  /-- The key holds a name where the request looks. -/
  | found {key : κ} {n : String} (hkey : r.key? = some key) (hn : s.found? r key = some n) :
      Effect s r (some n) s.tables
  /-- The key gets a name that nobody holds, in the global table or in the innermost scope. -/
  | given {key : κ} {n : String} {outer inner : List (List (κ × String))}
      {table : List (κ × String)} (hkey : r.key? = some key) (hnone : s.found? r key = none)
      (hnew : n ∉ s.live)
      (htables : s.tables = outer ++ table :: inner) (hplace : outer.isEmpty = s.asksGlobal r) :
      Effect s r (some n) (outer ++ ((key, n) :: table) :: inner)
  | opened (hkey : r.key? = none) : Effect s r none (s.tables ++ [[]])
  | closed {rest : List (List (κ × String))} {table : List (κ × String)} (hkey : r.key? = none)
      (htables : s.tables = rest ++ [table]) : Effect s r none rest
  | kept (hkey : r.key? = none) : Effect s r none s.tables

/-- A request that is answered by `name` has one of the effects `found` and `given`. -/
private theorem name_effect (hkey : r.key? = some key) (hglobal : s.asksGlobal r = true)
    (preferred : String) :
    Effect s r (some (s.name key preferred).1) (s.name key preferred).2.tables := by
  have hfound : s.found? r key = s.held key := if_pos hglobal
  rcases s.name_cases key preferred with ⟨n, hheld, heq⟩ | ⟨n, hheld, hn, heq⟩
  · rw [heq]
    exact .found hkey (hfound.trans hheld)
  · rw [heq]
    have hnew : n ∉ s.live := hn ▸ s.fresh_not_mem_live _
    have htables : s.tables = [] ++ s.global :: s.scopes.reverse := rfl
    exact .given hkey (hfound.trans hheld) hnew htables hglobal.symm

/-- Every `step` of a supply has an `Effect`. -/
theorem step_effect (s : NameSupply κ) (r : Request κ) :
    Effect s r (s.step r).1 (s.step r).2.tables := by
  cases r with
  | name key preferred => exact name_effect rfl rfl preferred
  | openScope =>
    have htables : s.openScope.tables = s.tables ++ [[]] := by simp [tables, openScope]
    rw [show (s.step .openScope).2.tables = s.tables ++ [[]] from htables]
    exact .opened rfl
  | closeScope =>
    show Effect s .closeScope none s.closeScope.tables
    cases hscopes : s.scopes with
    | nil =>
      have htables : s.closeScope.tables = s.tables := by simp [tables, closeScope, hscopes]
      rw [htables]
      exact .kept rfl
    | cons innermost outer =>
      have htables : s.tables = s.closeScope.tables ++ [innermost] := by
        simp [tables, closeScope, hscopes]
      exact .closed rfl htables
  | localName key preferred =>
    cases hscopes : s.scopes with
    | nil =>
      have hname : s.localName key preferred = s.name key preferred := by rw [localName, hscopes]
      show Effect s _ (some (s.localName key preferred).1) (s.localName key preferred).2.tables
      rw [hname]
      exact name_effect rfl (by simp [asksGlobal, hscopes]) preferred
    | cons innermost outer =>
      have hlocal : s.asksGlobal (.localName key preferred) = false := by simp [asksGlobal, hscopes]
      have hfound : s.found? (.localName key preferred) key =
          s.scopes.findSome? (·.lookup key) := by
        rw [found?, hlocal]
        rfl
      show Effect s _ (some (s.localName key preferred).1) (s.localName key preferred).2.tables
      unfold localName
      rw [hscopes]
      -- With a scope open the request looks at the scopes, and gives a name in the innermost one.
      cases hheld : (innermost :: outer).findSome? (·.lookup key) with
      | some n => exact .found rfl (by rw [hfound, hscopes, hheld])
      | none =>
        have hnew := s.fresh_not_mem_live (legalName s.spacer preferred)
        have heffect : Effect s (.localName key preferred)
            (some (s.fresh (legalName s.spacer preferred)))
            ((s.global :: outer.reverse) ++
              [(key, s.fresh (legalName s.spacer preferred)) :: innermost]) :=
          .given rfl (by rw [hfound, hscopes, hheld]) hnew (by simp [tables, hscopes])
            (by rw [hlocal]; rfl)
        simpa [tables] using heffect

/-! ## What always holds -/

/-- A key that a request for a local name does not find (`found?`) is in no scope. -/
private theorem not_mem_of_found?_eq_none (hlocal : s.asksGlobal r = false)
    (hnone : s.found? r key = none) : key ∉ s.tables.tail.flatten.map Prod.fst := by
  rw [found?, hlocal] at hnone
  intro hmem
  rw [List.map_flatten, List.mem_flatten] at hmem
  obtain ⟨keys, hkeys, hkey⟩ := hmem
  obtain ⟨table, htable, rfl⟩ := List.mem_map.1 hkeys
  have hlookup : table.lookup key = none :=
    List.findSome?_eq_none_iff.1 hnone table (List.mem_reverse.1 htable)
  exact lookup_eq_none_iff_not_mem.1 hlookup hkey

/-- A request gives a name in a table where the key has none. -/
private theorem not_mem_of_given {outer inner : List (List (κ × String))}
    {table : List (κ × String)} (hnone : s.found? r key = none)
    (htables : s.tables = outer ++ table :: inner) (hplace : outer.isEmpty = s.asksGlobal r) :
    key ∉ table.map Prod.fst := by
  cases outer with
  | nil =>
    have htable : s.global = table := (List.cons.inj htables).1
    rw [found?, ← hplace] at hnone
    exact lookup_eq_none_iff_not_mem.1 (htable ▸ hnone)
  | cons first outer =>
    -- A table of a scope: the request has looked at all of these.
    have hscopes : s.tables.tail = outer ++ table :: inner := by rw [htables]; rfl
    intro hmem
    refine not_mem_of_found?_eq_none hplace.symm hnone ?_
    rw [hscopes]
    simp only [List.flatten_append, List.flatten_cons, List.map_append]
    exact List.mem_append_right _ (List.mem_append_left _ hmem)

/-- Every `Effect` keeps a supply `Sound`. -/
private theorem Effect.sound {answer : Option String} (h : Effect s r answer s'.tables)
    (hs : s.Sound) : s'.Sound := by
  generalize htables' : s'.tables = ts at h
  cases h with
  | found hkey hn | kept hkey =>
    exact ⟨htables' ▸ hs.names, htables' ▸ hs.globalKeys, htables' ▸ hs.localKeys⟩
  | opened hkey =>
    refine ⟨?_, htables' ▸ hs.globalKeys, ?_⟩
    · rw [htables']
      simpa using hs.names
    · have htail : (s.tables ++ [[]]).tail = s.tables.tail ++ [[]] := rfl
      rw [htables', htail]
      simpa using hs.localKeys
  | @closed _ table hkey htables =>
    have hnames := hs.names
    have hglobal := hs.globalKeys
    have hlocal := hs.localKeys
    rw [htables] at hnames hglobal hlocal
    rw [List.flatten_append, List.map_append] at hnames
    cases ts with
    | nil => exact ⟨htables' ▸ hnames.of_append_left, htables' ▸ by simp, htables' ▸ .nil⟩
    | cons first rest =>
      rw [List.cons_append, List.tail_cons, List.flatten_append, List.map_append] at hlocal
      exact ⟨htables' ▸ hnames.of_append_left, htables' ▸ hglobal, htables' ▸ hlocal.of_append_left⟩
  | @given key n outer inner table hkey hnone hnew htables hplace =>
    -- A new name, of a key that is new in its table and, in a scope, in all of them.
    have hperm := flatten_insert_perm outer inner table (key, n)
    refine ⟨?_, ?_, ?_⟩
    · rw [htables', (hperm.map Prod.snd).nodup_iff, ← htables, List.map_cons, List.nodup_cons]
      exact ⟨fun hmem => hnew (s.live_perm.mem_iff.2 hmem), hs.names⟩
    · have hkeys := hs.globalKeys
      rw [htables] at hkeys
      rw [htables']
      cases outer with
      | nil => simpa [not_mem_of_given hnone htables hplace] using hkeys
      | cons first outer => exact hkeys
    · rw [htables']
      have hkeys := hs.localKeys
      rw [htables] at hkeys
      cases outer with
      | nil => exact hkeys
      | cons first outer =>
        have hfree := not_mem_of_found?_eq_none hplace.symm hnone
        rw [htables] at hfree
        show ((outer ++ ((key, n) :: table) :: inner).flatten.map Prod.fst).Nodup
        rw [((flatten_insert_perm outer inner table (key, n)).map Prod.fst).nodup_iff,
          List.map_cons, List.nodup_cons]
        exact ⟨hfree, hkeys⟩

/-- Every request keeps a supply `Sound`. -/
theorem Sound.step (hs : s.Sound) (r : Request κ) : (s.step r).2.Sound := (s.step_effect r).sound hs

/-- So a supply is `Sound` after any requests. -/
theorem Sound.run (hs : s.Sound) (requests : List (Request κ)) : (s.run requests).2.Sound := by
  induction requests generalizing s with
  | nil => exact hs
  | cons r requests ih => exact ih (hs.step r)

/-- A name is held in one place, by one key: `nameAt` is injective. -/
private theorem Sound.nameAt_inj (hs : s.Sound) (h : s.nameAt place key = some n)
    (h' : s.nameAt place' key' = some n) : place = place' ∧ key = key' := by
  obtain ⟨table, htable, hlookup⟩ := Option.bind_eq_some_iff.1 h
  obtain ⟨table', htable', hlookup'⟩ := Option.bind_eq_some_iff.1 h'
  have hmem := mem_of_lookup_eq_some hlookup
  have hmem' := mem_of_lookup_eq_some hlookup'
  have hnames := hs.names
  rw [List.map_flatten, List.nodup_flatten] at hnames
  obtain ⟨hplace, hcontents⟩ := List.getElem?_eq_some_iff.1 htable
  obtain ⟨hplace', hcontents'⟩ := List.getElem?_eq_some_iff.1 htable'
  -- The tables have no name in common, so it is the same table.
  have heq : place = place' := by
    have hdisjoint := List.pairwise_iff_getElem.1 (List.pairwise_map.1 hnames.2)
    have hname : n ∈ table.map Prod.snd := List.mem_map_of_mem hmem
    have hname' : n ∈ table'.map Prod.snd := List.mem_map_of_mem hmem'
    rw [← hcontents] at hname
    rw [← hcontents'] at hname'
    rcases Nat.lt_trichotomy place place' with hlt | heq | hlt
    · exact absurd hname' (hdisjoint _ _ hplace hplace' hlt hname)
    · exact heq
    · exact absurd hname (hdisjoint _ _ hplace' hplace hlt hname')
  subst heq
  obtain rfl := Option.some.inj (htable.symm.trans htable')
  have htableNames : (table.map Prod.snd).Nodup :=
    hnames.1 _ (List.mem_map_of_mem (List.mem_of_getElem? htable))
  exact ⟨rfl, congrArg Prod.fst (List.inj_on_of_nodup_map htableNames hmem hmem' rfl)⟩

/-- What a key holds somewhere is `live`. -/
theorem mem_live_of_nameAt (h : s.nameAt place key = some n) : n ∈ s.live := by
  obtain ⟨table, htable, hlookup⟩ := Option.bind_eq_some_iff.1 h
  exact mem_live_iff.2 ⟨table, List.mem_of_getElem? htable,
    List.mem_map_of_mem (mem_of_lookup_eq_some hlookup)⟩

/-- The names in `live` are those that keys hold, by `nameAt`. -/
private theorem Sound.mem_live_iff_nameAt (hs : s.Sound) :
    n ∈ s.live ↔ ∃ place key, s.nameAt place key = some n := by
  constructor
  · intro hn
    obtain ⟨table, htable, hn⟩ := mem_live_iff.1 hn
    obtain ⟨e, he, rfl⟩ := List.mem_map.1 hn
    obtain ⟨place, hplace⟩ := List.getElem?_of_mem htable
    refine ⟨place, e.1, ?_⟩
    rw [nameAt, hplace]
    exact lookup_of_mem (hs.keys htable) he
  · rintro ⟨place, key, h⟩
    exact mem_live_of_nameAt h

/-! ## What is handed out -/

/-- What a request finds (`found?`) is held where it looks (`nameAt`). -/
theorem nameAt_of_found? (h : s.found? r key = some n) :
    ∃ place, s.nameAt place key = some n ∧ s.asksGlobal r = decide (place = 0) := by
  rw [found?] at h
  cases hglobal : s.asksGlobal r with
  | true =>
    rw [hglobal] at h
    exact ⟨0, h, rfl⟩
  | false =>
    rw [hglobal] at h
    obtain ⟨table, htable, hlookup⟩ := List.exists_of_findSome?_eq_some h
    -- The scopes come after the global table, so the place is one more than the depth.
    obtain ⟨depth, hdepth⟩ := List.getElem?_of_mem (List.mem_reverse.2 htable)
    refine ⟨depth + 1, ?_, by simp⟩
    rw [nameAt, tables, List.getElem?_cons_succ, hdepth]
    exact hlookup

/-- A key gets what it holds where the request looks (`found?`), or a name that is not `live`. -/
theorem answer_cases (hkey : r.key? = some key) (h : (s.step r).1 = some n) :
    s.found? r key = some n ∨ s.found? r key = none ∧ n ∉ s.live := by
  have heffect := s.step_effect r
  rw [h] at heffect
  generalize (s.step r).2.tables = ts at heffect
  cases heffect with
  | found hkey' hn =>
    obtain rfl := Option.some.inj (hkey.symm.trans hkey')
    exact .inl hn
  | given hkey' hnone hnew _ _ =>
    obtain rfl := Option.some.inj (hkey.symm.trans hkey')
    exact .inr ⟨hnone, hnew⟩

/-- Whatever was asked of a supply, and with whatever `spacer`, the names that are `live`, globally
    and in all open scopes, are different: a name is held in one place and by one key (`nameAt`).  A
    name that is handed out, unless its key holds it already, is one that nobody holds.  With less
    than `2 ^ 32` names held the search for it gets along with numbers below `2 ^ 32`, which is
    `UInt32.size`. -/
theorem live_names_distinct (spacer : String) (requests : List (Request κ)) :
    let s : NameSupply κ := (run { spacer } requests).2
    s.live.Nodup ∧
    (∀ n, n ∈ s.live ↔ ∃ place key, s.nameAt place key = some n) ∧
    (∀ place place' key key' n, s.nameAt place key = some n → s.nameAt place' key' = some n →
      place = place' ∧ key = key') ∧
    (∀ r key n, r.key? = some key → (s.step r).1 = some n → (∀ place, s.nameAt place key ≠ some n) →
      n ∉ s.live) ∧
    (s.live.length < UInt32.size → ∀ base,
      s.fresh base = base ∨ ∃ i < UInt32.size, s.fresh base = base ++ s.spacer ++ toString i) := by
  intro s
  have hs : s.Sound := (sound_empty spacer).run requests
  refine ⟨s.live_perm.nodup_iff.2 hs.names, fun n => hs.mem_live_iff_nameAt,
    fun place place' key key' n h h' => hs.nameAt_inj h h',
    fun r key n hkey hanswer hother => ?_, fun hfew base => ?_⟩
  · -- An answer is found, at a place where the key has it, or new.
    rcases answer_cases hkey hanswer with hfound | ⟨_, hnew⟩
    · obtain ⟨place, hplace, _⟩ := nameAt_of_found? hfound
      exact absurd hplace (hother place)
    · exact hnew
  · rcases s.fresh_number base with heq | ⟨i, hi, heq⟩
    · exact .inl heq
    · exact .inr ⟨i, Nat.lt_of_le_of_lt hi hfew, heq⟩

/-- Without a `spacer` a numbered name can be the preferred name of another key. -/
def unspacedRequests : List (Request Nat) :=
  [.name 0 "x1", .openScope, .localName 1 "x", .localName 2 "x", .openScope, .localName 3 "x",
    .name 1 "x0"]

/-- With an empty `spacer` the names are different all the same: the preferred `x0` is given as
    `x00`. -/
theorem live_names_distinct_unspaced :
    (run { spacer := "" } unspacedRequests : _ × NameSupply Nat).1 =
      [some "x1", none, some "x", some "x0", none, some "x2", some "x00"] ∧
    (run { spacer := "" } unspacedRequests : _ × NameSupply Nat).2.live =
      ["x00", "x1", "x2", "x0", "x"] ∧
    (run { spacer := "" } unspacedRequests : _ × NameSupply Nat).2.live.Nodup :=
  ⟨by decide, by decide, (live_names_distinct "" unspacedRequests).1⟩

/-! ## Keeping a name -/

/-- A key that is new in its table changes nothing for the look-up of another. -/
private theorem lookup_insert {table : List (κ × String)} {new : String}
    (h : table.lookup key = some n) (hnew : key' ∉ table.map Prod.fst) :
    ((key', new) :: table).lookup key = some n := by
  have hne : (key == key') = false := by
    refine Bool.eq_false_iff.2 fun heq => hnew ?_
    rw [← eq_of_beq heq]
    exact List.mem_map_of_mem (mem_of_lookup_eq_some h)
  rw [List.lookup_cons, hne]
  exact h

/-- A name stays where it is held (`nameAt`) through a `step`, as long as the place is there. -/
private theorem nameAt_step (h : s.nameAt place key = some n)
    (hopen : place < (s.step r).2.tables.length) : (s.step r).2.nameAt place key = some n := by
  have heffect := s.step_effect r
  obtain ⟨table, htable, hlookup⟩ := Option.bind_eq_some_iff.1 h
  rw [nameAt, Option.bind_eq_some_iff]
  generalize (s.step r).1 = answer at heffect
  generalize (s.step r).2.tables = ts at heffect hopen
  cases heffect with
  | found _ _ | kept _ => exact ⟨table, htable, hlookup⟩
  | opened _ =>
    obtain ⟨hlt, _⟩ := List.getElem?_eq_some_iff.1 htable
    exact ⟨table, (List.getElem?_append_left hlt).trans htable, hlookup⟩
  | closed _ htables =>
    rw [htables, List.getElem?_append_left hopen] at htable
    exact ⟨table, htable, hlookup⟩
  | @given key' new outer inner changed _ hnone _ htables hplace =>
    have hfree := not_mem_of_given hnone htables hplace
    rw [htables] at htable
    -- The place is before the changed table, is that table, or is behind it.
    rcases Nat.lt_trichotomy place outer.length with hlt | heq | hlt
    · rw [List.getElem?_append_left hlt] at htable ⊢
      exact ⟨table, htable, hlookup⟩
    · subst heq
      rw [List.getElem?_append_right (Nat.le_refl _), Nat.sub_self] at htable ⊢
      obtain rfl := Option.some.inj htable
      exact ⟨_, rfl, lookup_insert hlookup hfree⟩
    · have hoffset : place - outer.length = (place - outer.length - 1) + 1 := by omega
      rw [List.getElem?_append_right (Nat.le_of_lt hlt), hoffset,
        List.getElem?_cons_succ] at htable ⊢
      exact ⟨table, htable, hlookup⟩

/-- A name stays where it is held (`nameAt`) through a `run`, until the scope is closed. -/
private theorem nameAt_run {requests : List (Request κ)} (h : s.nameAt place key = some n)
    (hopen : ∀ rs, rs <+: requests → place ≤ (s.run rs).2.scopes.length) :
    (s.run requests).2.nameAt place key = some n := by
  induction requests generalizing s with
  | nil => exact h
  | cons r requests ih =>
    have hfirst : place < (s.step r).2.tables.length := by
      rw [length_tables]
      exact Nat.lt_succ_of_le (hopen [r] (by simp))
    exact ih (nameAt_step h hfirst) fun rs hrs => hopen (r :: rs) ((List.prefix_cons_inj r).2 hrs)

/-- A request that looks where a key holds a name finds it. -/
private theorem Sound.found?_eq (hs : s.Sound) (h : s.nameAt place key = some n)
    (hplace : s.asksGlobal r = decide (place = 0)) : s.found? r key = some n := by
  obtain ⟨table, htable, hlookup⟩ := Option.bind_eq_some_iff.1 h
  cases place with
  | zero =>
    obtain rfl := Option.some.inj htable
    rw [found?, hplace]
    exact hlookup
  | succ depth =>
    have hlocal : s.asksGlobal r = false := by simpa using hplace
    have hmem : table ∈ s.tables.tail := List.mem_of_getElem? htable
    have hentry : (key, n) ∈ s.tables.tail.flatten :=
      List.mem_flatten_of_mem hmem (mem_of_lookup_eq_some hlookup)
    cases hfound : s.found? r key with
    | none => exact absurd (List.mem_map_of_mem hentry) (not_mem_of_found?_eq_none hlocal hfound)
    | some m =>
      -- The request may find the key in another scope, but no key is in two scopes.
      rw [found?, hlocal] at hfound
      obtain ⟨table', htable', hlookup'⟩ := List.exists_of_findSome?_eq_some hfound
      have hentry' : (key, m) ∈ s.tables.tail.flatten :=
        List.mem_flatten_of_mem (List.mem_reverse.2 htable') (mem_of_lookup_eq_some hlookup')
      have heq := List.inj_on_of_nodup_map hs.localKeys hentry' hentry rfl
      rw [(Prod.mk.inj heq).2]

/-- A key gets the name that it holds at a place exactly if the request looks there. -/
private theorem Sound.answer_iff (hs : s.Sound) (h : s.nameAt place key = some n)
    (hkey : r.key? = some key) : (s.step r).1 = some n ↔ s.asksGlobal r = decide (place = 0) := by
  constructor
  · intro hanswer
    rcases answer_cases hkey hanswer with hfound | ⟨_, hnew⟩
    · obtain ⟨place', hplace', heq⟩ := nameAt_of_found? hfound
      rwa [(hs.nameAt_inj h hplace').1]
    · exact absurd (hs.mem_live_iff_nameAt.2 ⟨place, key, h⟩) hnew
  · intro hplace
    have hfound := hs.found?_eq h hplace
    have heffect := s.step_effect r
    generalize (s.step r).1 = answer at heffect
    generalize (s.step r).2.tables = ts at heffect
    cases heffect with
    | found hkey' hn =>
      obtain rfl := Option.some.inj (hkey.symm.trans hkey')
      exact hn.symm.trans hfound
    | given hkey' hnone _ _ _ =>
      obtain rfl := Option.some.inj (hkey.symm.trans hkey')
      rw [hnone] at hfound
      cases hfound
    | opened hnone | closed hnone _ | kept hnone =>
      -- These requests ask for no name.
      rw [hkey] at hnone
      cases hnone

/-- What a key gets from a `step` it holds afterwards, at a place where the request has looked. -/
private theorem exists_nameAt_step (hkey : r.key? = some key) (hanswer : (s.step r).1 = some n) :
    ∃ place, (s.step r).2.nameAt place key = some n ∧ s.asksGlobal r = decide (place = 0) := by
  have heffect := s.step_effect r
  rw [hanswer] at heffect
  unfold nameAt
  generalize (s.step r).2.tables = ts at heffect
  cases heffect with
  | found hkey' hn =>
    obtain rfl := Option.some.inj (hkey.symm.trans hkey')
    exact nameAt_of_found? hn
  | @given key' _ outer inner table hkey' _ _ _ hplace =>
    obtain rfl := Option.some.inj (hkey.symm.trans hkey')
    refine ⟨outer.length, ?_, ?_⟩
    · rw [List.getElem?_append_right (Nat.le_refl _), Nat.sub_self]
      exact List.lookup_cons_self
    · rw [← hplace]
      cases outer <;> simp

/-- A key that was given a name holds it at some place (`nameAt`), and goes on to hold it as long as
    that place is there, whatever is asked meanwhile.  A later request for the key, with whatever
    preferred name, gets the same name exactly if it looks at the same kind of table (`asksGlobal`):
    both at the global one, or both at the scopes. -/
theorem later_answer_iff (spacer : String) (before : List (Request κ)) {r : Request κ} {key : κ}
    {n : String} (hkey : r.key? = some key)
    (hgiven : ((run { spacer } before).2.step r).1 = some n) :
    let s₀ : NameSupply κ := (run { spacer } before).2
    let s₁ := (s₀.step r).2
    ∃ place, s₁.nameAt place key = some n ∧
      ∀ between, (∀ rs, rs <+: between → place ≤ (s₁.run rs).2.scopes.length) →
        let s₂ := (s₁.run between).2
        s₂.nameAt place key = some n ∧
        ∀ r', r'.key? = some key → ((s₂.step r').1 = some n ↔
          s₂.asksGlobal r' = s₀.asksGlobal r) := by
  intro s₀ s₁
  have hs : s₁.Sound := ((sound_empty spacer).run before).step r
  obtain ⟨place, hplace, hglobal⟩ := exists_nameAt_step hkey hgiven
  refine ⟨place, hplace, fun between hopen => ?_⟩
  -- As long as the place is there, the key keeps the name.
  have hkept := nameAt_run hplace hopen
  refine ⟨hkept, fun r' hkey' => ?_⟩
  rw [(hs.run between).answer_iff hkept hkey', hglobal]

end

/-- What is asked while the key 0 holds a name in a scope. -/
def requestsBetween : List (Request Nat) :=
  [.openScope, .localName 1 "x", .openScope, .closeScope, .name 0 "y"]

/-- After `requestsBetween` the key gets its local name again, from the scope around the open one,
    and not its global name. -/
theorem later_answer_outer_scope :
    let s : NameSupply Nat := ((run {} [.openScope, .localName 0 "x"]).2.run requestsBetween).2
    (s.step (.localName 0 "z")).1 = some "x" ∧ (s.step (.name 0 "z")).1 ≠ some "x" := by
  have hgiven : ((run {} [.openScope] : _ × NameSupply Nat).2.step (.localName 0 "x")).1 =
    some "x" := by decide
  have hplace : (run {} [.openScope, .localName 0 "x"] : _ × NameSupply Nat).2.nameAt 1 0 =
    some "x" := by decide
  obtain ⟨place, hplace', hlater⟩ := later_answer_iff "_" [.openScope] rfl hgiven
  have hs := (sound_empty "_").run [Request.openScope, .localName 0 "x"]
  obtain ⟨rfl, _⟩ := hs.nameAt_inj hplace' hplace
  -- The scope stays open throughout.
  have hopen : ∀ rs ∈ requestsBetween.inits,
      1 ≤ ((run {} [.openScope, .localName 0 "x"] : _ × NameSupply Nat).2.run
        rs).2.scopes.length := by
    decide
  obtain ⟨_, hanswer⟩ := hlater requestsBetween fun rs hrs => hopen rs ((List.mem_inits rs _).2 hrs)
  exact ⟨(hanswer (.localName 0 "z") rfl).2 rfl,
    fun h => absurd ((hanswer (.name 0 "z") rfl).1 h) (by decide)⟩

/-- A key that holds a local name is given another one by `name`, and a key with a global name
    another one by `localName` in a scope, though no scope is closed meanwhile. -/
theorem name_not_kept :
    (run {} [.openScope, .localName 0 "x", .name 0 "x", .localName 0 "y"] : _ × NameSupply Nat).1 =
      [none, some "x", some "x_0", some "x"] ∧
    (run {} [.name 0 "x", .openScope, .localName 0 "x", .name 0 "y"] : _ × NameSupply Nat).1 =
      [some "x", none, some "x_0", some "x"] := by
  decide

end Warrant.NameSupply
