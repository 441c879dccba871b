import Warrant.Names.Supply
import Warrant.Proofs.Assoc
import Warrant.Proofs.FreshBinders

/-!
# What name supplies guarantee

A key that holds a global name keeps it, and a new name is one that nobody holds.  So in every
supply that is reached by asking for global names, different keys hold different names.

* `fresh_cases`: the new name is the wanted one, or the first of its numbered variants that is free.
* `name_cases`: what asking for a name can do.
* `Distinct`: different keys hold different names; `Distinct.name` and `Distinct.names` keep it.
* `map_some_names`: the names that are handed out for a list of keys are those that the keys hold
  afterwards.
* `Reached`: the names that a stem can lead to; `mem_names_iff` says which names are handed out for
  a list of keys.
* `Unreserved`: no name with a fixed meaning is handed out.
-/

namespace Warrant

/-! ## Numbered variants -/

/-- The digits of a number determine it: `toString` is injective. -/
theorem toString_injective {i j : Nat} (h : toString i = toString j) : i = j := by
  have hdigits : Nat.toDigits 10 i = Nat.toDigits 10 j := String.ofList_injective h
  have hvalue (n : Nat) : Nat.ofDigitChars 10 (Nat.toDigits 10 n) 0 = n :=
    Nat.ofDigitChars_toDigits (by decide) (by decide)
  rw [← hvalue i, hdigits, hvalue]

/-- Variants of one `stem` with different numbers differ. -/
theorem numbered_injective (stem : String) {i j : Nat}
    (h : stem ++ toString i = stem ++ toString j) : i = j :=
  toString_injective ((String.append_right_inj stem).1 h)

/-- A printed number has nothing but digits. -/
theorem isDigit_of_mem_toString {k : Nat} {c : Char} (h : c ∈ (toString k).toList) :
    c.isDigit = true := by
  rw [show (toString k).toList = Nat.toDigits 10 k from String.toList_ofList] at h
  exact Nat.isDigit_of_mem_toDigits (by decide) (by decide) h

/-- A numbered variant of a `stem` ends in a digit. -/
theorem numbered_ends_with_digit (stem : String) (k : Nat) :
    ((stem ++ toString k).toList.getLast?.any Char.isDigit) = true := by
  have hne : (toString k).toList ≠ [] := by
    refine List.ne_nil_of_length_pos ?_
    rw [String.length_toList]
    exact Nat.length_repr_pos
  rw [String.toList_append, List.getLast?_append, List.getLast?_eq_some_getLast hne, Option.some_or,
    Option.any_some]
  exact isDigit_of_mem_toString (List.getLast_mem hne)

/-- A numbered variant, with `_` before the number, tells the name and the number. -/
theorem numbered_inj {stem stem' : String} {i j : Nat}
    (h : stem ++ "_" ++ toString i = stem' ++ "_" ++ toString j) : stem = stem' ∧ i = j := by
  -- What follows the last separator is the number.
  have hlast (stem : String) (k : Nat) :
      (stem ++ "_" ++ toString k).toList.reverse.takeWhile (· ≠ '_') =
        (toString k).toList.reverse := by
    rw [String.toList_append, String.toList_append, List.reverse_append, List.reverse_append,
      List.takeWhile_append_of_pos]
    · simp
    · intro c hc
      have hdigit := isDigit_of_mem_toString (List.mem_reverse.1 hc)
      simp only [ne_eq, decide_eq_true_eq]
      rintro rfl
      cases hdigit
  have hnumber : (toString i).toList.reverse = (toString j).toList.reverse := by
    rw [← hlast stem, h, hlast]
  obtain rfl : i = j := toString_injective (String.toList_inj.1 (List.reverse_inj.1 hnumber))
  have hstem := (String.append_left_inj _).1 ((String.append_left_inj _).1 h)
  exact ⟨hstem, rfl⟩

/-- `numberedFrom` stops at the first number whose variant is not taken, if it gets there. -/
private theorem numberedFrom_cases (taken : List String) (stem : String) (fuel i : Nat) :
    (∃ k, i ≤ k ∧ numberedFrom taken stem fuel i = some (stem ++ toString k) ∧
      stem ++ toString k ∉ taken ∧
      ∀ j, i ≤ j → j < k → stem ++ toString j ∈ taken) ∨
    ∀ j, i ≤ j → j < i + fuel → stem ++ toString j ∈ taken := by
  induction fuel generalizing i with
  | zero => exact .inr fun j hj hlt => by omega
  | succ fuel ih =>
    rw [numberedFrom]
    by_cases hmem : stem ++ toString i ∈ taken
    · -- The first number is taken, so what holds from the next on holds from it on.
      have hfrom {j : Nat} (hj : i ≤ j) (h : i + 1 ≤ j → stem ++ toString j ∈ taken) :
          stem ++ toString j ∈ taken := by
        by_cases heq : j = i
        · rwa [heq]
        · exact h (by omega)
      simp only [if_pos hmem]
      rcases ih (i + 1) with ⟨k, hk, hres, hfree, hbelow⟩ | hall
      · exact .inl ⟨k, by omega, hres, hfree, fun j hj hlt => hfrom hj fun h => hbelow j h hlt⟩
      · exact .inr fun j hj hlt => hfrom hj fun h => hall j h (by omega)
    · simp only [if_neg hmem]
      exact .inl ⟨i, Nat.le_refl i, rfl, hmem, fun j hj hlt => by omega⟩

namespace NameSupply

variable {κ : Type}

/-- `fresh` is the wanted name if nobody holds that, and otherwise its first numbered variant that
    is free. -/
theorem fresh_cases (s : NameSupply κ) (base : String) :
    (base ∉ s.live ∧ s.fresh base = base) ∨
    (base ∈ s.live ∧ ∃ k : Nat, s.fresh base = base ++ s.spacer ++ toString k ∧
      s.fresh base ∉ s.live ∧
      ∀ j < k, base ++ s.spacer ++ toString j ∈ s.live) := by
  unfold fresh
  by_cases hmem : base ∈ s.live
  · rcases numberedFrom_cases s.live (base ++ s.spacer) (s.live.length + 1) 0 with
      ⟨k, _, hres, hfree, hbelow⟩ | hall
    · rw [if_pos hmem, hres]
      exact .inr ⟨hmem, k, rfl, hfree, fun j hj => hbelow j (Nat.zero_le j) hj⟩
    · -- The search looks at one variant more than there are names.
      have hle := le_length_of_candidates_mem (fun _ _ => numbered_injective (base ++ s.spacer))
        fun j hj => hall j (Nat.zero_le j) (by omega)
      omega
  · rw [if_neg hmem]
    exact .inl ⟨hmem, rfl⟩

/-- Nobody holds the name that `fresh` gives. -/
theorem fresh_not_mem_live (s : NameSupply κ) (base : String) : s.fresh base ∉ s.live := by
  rcases s.fresh_cases base with ⟨hfree, hres⟩ | ⟨_, k, _, hfree, _⟩
  · rwa [hres]
  · exact hfree

/-- The name `n` is reached from `stem` if it is the stem, or a numbered variant and the stem and
    all variants with smaller numbers are held (`live`). -/
def Reached (live : List String) (spacer stem n : String) : Prop :=
  n = stem ∨ stem ∈ live ∧
    ∃ k : Nat, n = stem ++ spacer ++ toString k ∧ ∀ j < k, stem ++ spacer ++ toString j ∈ live

/-- `Reached` depends on which names are held, not on their order. -/
private theorem reached_congr {live live' : List String} (h : ∀ n, n ∈ live ↔ n ∈ live')
    {spacer stem n : String} : Reached live spacer stem n ↔ Reached live' spacer stem n := by
  simp only [Reached, h]

/-- With the name that `fresh` gives, exactly the names that are `Reached` are held. -/
private theorem mem_live_or_eq_fresh_iff (s : NameSupply κ) (base n : String) :
    n ∈ s.live ∨ n = s.fresh base ↔ n ∈ s.live ∨ Reached s.live s.spacer base n := by
  rcases s.fresh_cases base with ⟨hfree, hres⟩ | ⟨hheld, k, hres, hfresh, hbelow⟩
  · simp [Reached, hres, hfree]
  · constructor
    · rintro (hn | rfl)
      · exact .inl hn
      · exact .inr (.inr ⟨hheld, k, hres, hbelow⟩)
    · rintro (hn | rfl | ⟨-, j, rfl, hj⟩)
      · exact .inl hn
      · exact .inl hheld
      · -- The new name is the first variant that is not held.
        rcases Nat.lt_trichotomy j k with hlt | rfl | hlt
        · exact .inl (hbelow j hlt)
        · exact .inr hres.symm
        · exact absurd (hres ▸ hj k hlt) hfresh

/-! ## Names that keys hold -/

section

variable [DecidableEq κ] {s : NameSupply κ} {key key' : κ} {preferred n : String}

/-- The `global` name of `key`. -/
def held (s : NameSupply κ) (key : κ) : Option String := s.global.lookup key

/-- A name that a key holds is `live`. -/
private theorem mem_live_of_held (h : s.held key = some n) : n ∈ s.live := by
  obtain ⟨l₁, l₂, hglobal, _⟩ := List.lookup_eq_some_iff.1 h
  simp [live, hglobal]

/-- The name that is wanted: the preferred one, unless that is in `reservedNames`. -/
def wanted (preferred : String) : String :=
  if preferred ∈ reservedNames then preferred ++ "ZZ" else preferred

/-- What `name` does: a key that holds a name gets it, and nothing changes; another gets a new name
    and holds that from then on. -/
theorem name_cases (s : NameSupply κ) (key : κ) (preferred : String) :
    (∃ n, s.held key = some n ∧ s.name key preferred = (n, s)) ∨
    ∃ n, s.held key = none ∧ n = s.fresh (legalName s.spacer (wanted preferred)) ∧
      s.name key preferred = (n, { s with global := (key, n) :: s.global }) := by
  unfold name held
  cases h : s.global.lookup key with
  | some n => exact .inl ⟨n, rfl, rfl⟩
  | none => exact .inr ⟨_, rfl, rfl, rfl⟩

/-- `name` keeps the spacer. -/
@[simp] theorem spacer_name : (s.name key preferred).2.spacer = s.spacer := by
  rcases s.name_cases key preferred with ⟨n, _, heq⟩ | ⟨n, _, _, heq⟩ <;> rw [heq]

/-- After `name` the key holds what was handed out for it, and all others hold what they held. -/
theorem held_name (s : NameSupply κ) (key key' : κ) (preferred : String) :
    (s.name key preferred).2.held key' = if key' = key then some (s.name key preferred).1
      else s.held key' := by
  rcases s.name_cases key preferred with ⟨n, hheld, heq⟩ | ⟨n, _, _, heq⟩
  · rw [heq]
    by_cases h : key' = key
    · simp [h, hheld]
    · simp [h]
  · rw [heq]
    by_cases h : key' = key
    · simp [held, h]
    · have hne : (key' == key) = false := by simpa using h
      simp [held, List.lookup_cons, h, hne]

/-- After `name` the key holds what was handed out for it. -/
theorem held_name_self : (s.name key preferred).2.held key = some (s.name key preferred).1 := by
  rw [held_name, if_pos rfl]

/-- A name that is held is kept by `name`. -/
theorem held_name_of_held (h : s.held key' = some n) :
    (s.name key preferred).2.held key' = some n := by
  rw [held_name]
  by_cases heq : key' = key
  · subst heq
    rcases s.name_cases key' preferred with ⟨n', hheld, hname⟩ | ⟨_, hnone, _⟩
    · rw [if_pos rfl, hname, ← hheld, h]
    · rw [h] at hnone
      cases hnone
  · rwa [if_neg heq]

/-- Different keys hold different names, by `held`. -/
def Distinct (s : NameSupply κ) : Prop :=
  ∀ ⦃key key' : κ⦄ ⦃n : String⦄, s.held key = some n → s.held key' = some n → key = key'

/-- In a new supply nobody holds a name. -/
theorem distinct_empty (spacer : String) : ({ spacer } : NameSupply κ).Distinct :=
  fun _ _ _ h => nomatch h

/-- `name` keeps names `Distinct`. -/
theorem Distinct.name (hs : s.Distinct) (key : κ) (preferred : String) :
    (s.name key preferred).2.Distinct := by
  rcases s.name_cases key preferred with ⟨n, _, heq⟩ | ⟨new, _, hnew, heq⟩
  · rwa [heq]
  · have hfree : new ∉ s.live := by
      rw [hnew]
      exact s.fresh_not_mem_live _
    have hfirst : (s.name key preferred).1 = new := by rw [heq]
    intro k k' n hk hk'
    rw [held_name, hfirst] at hk hk'
    -- Each of the two keys is the one that got the name, or one that held its name before.
    by_cases h : k = key <;> by_cases h' : k' = key
    · rw [h, h']
    -- The new name is held by nobody else.
    · rw [if_pos h] at hk
      rw [if_neg h', ← Option.some.inj hk] at hk'
      exact absurd (mem_live_of_held hk') hfree
    · rw [if_pos h'] at hk'
      rw [if_neg h, ← Option.some.inj hk'] at hk
      exact absurd (mem_live_of_held hk) hfree
    · rw [if_neg h] at hk
      rw [if_neg h'] at hk'
      exact hs hk hk'

/-! ## Several names -/

variable {requests : List (κ × String)}

/-- `names` asks for the first name, and for the others from what that leaves. -/
theorem names_cons (s : NameSupply κ) (request : κ × String) (rest : List (κ × String)) :
    s.names (request :: rest) =
      ((s.name request.1 request.2).1 :: ((s.name request.1 request.2).2.names rest).1,
        ((s.name request.1 request.2).2.names rest).2) :=
  rfl

/-- `names` keeps the spacer. -/
@[simp] theorem spacer_names : (s.names requests).2.spacer = s.spacer := by
  induction requests generalizing s with
  | nil => rfl
  | cons request rest ih => simp [names_cons, ih]

/-- A name that is held is kept by `names`. -/
theorem held_names_of_held (h : s.held key = some n) : (s.names requests).2.held key = some n := by
  induction requests generalizing s with
  | nil => exact h
  | cons request rest ih => exact ih (held_name_of_held h)

/-- `names` keeps names `Distinct`. -/
theorem Distinct.names (hs : s.Distinct) (requests : List (κ × String)) :
    (s.names requests).2.Distinct := by
  induction requests generalizing s with
  | nil => exact hs
  | cons request rest ih => exact ih (hs.name _ _)

/-- What `names` hands out is what the keys hold afterwards. -/
theorem map_some_names (s : NameSupply κ) (requests : List (κ × String)) :
    (s.names requests).1.map some = requests.map fun r => (s.names requests).2.held r.1 := by
  induction requests generalizing s with
  | nil => rfl
  | cons request rest ih =>
    rw [names_cons, List.map_cons, List.map_cons, ih]
    exact congrArg (· :: _) (held_names_of_held held_name_self).symm

/-- Each key holds the name at its position in the answer of `names`. -/
theorem held_of_mem_zip_names {e : κ × String}
    (he : e ∈ (requests.map Prod.fst).zip (s.names requests).1) :
    (s.names requests).2.held e.1 = some e.2 := by
  induction requests generalizing s with
  | nil => cases he
  | cons request rest ih =>
    rw [names_cons] at he ⊢
    obtain rfl | he := List.mem_cons.1 he
    · exact held_names_of_held held_name_self
    · exact ih he

/-- After `names` every key that was asked for holds a name. -/
theorem exists_held_names (hkey : key ∈ requests.map Prod.fst) :
    ∃ n, (s.names requests).2.held key = some n := by
  have hmem : (s.names requests).2.held key ∈ (s.names requests).1.map some := by
    rw [map_some_names]
    obtain ⟨r, hr, rfl⟩ := List.mem_map.1 hkey
    exact List.mem_map.2 ⟨r, hr, rfl⟩
  obtain ⟨n, _, hn⟩ := List.mem_map.1 hmem
  exact ⟨n, hn.symm⟩

/-- Names that are held by different keys are different. -/
theorem Distinct.nodup (hs : s.Distinct) {keys : List κ} {ns : List String}
    (hns : ns.map some = keys.map s.held) (hkeys : keys.Nodup) : ns.Nodup := by
  induction keys generalizing ns with
  | nil =>
    obtain rfl := List.map_eq_nil_iff.1 hns
    exact .nil
  | cons key keys ih =>
    cases ns with
    | nil => exact .nil
    | cons n ns =>
      obtain ⟨hn, hrest⟩ := List.cons.inj hns
      obtain ⟨hkey, hkeys⟩ := List.nodup_cons.1 hkeys
      refine List.nodup_cons.2 ⟨fun hmem => hkey ?_, ih hrest hkeys⟩
      -- A second occurrence of the name belongs to a key of the rest.
      have hmem' : some n ∈ keys.map s.held := hrest ▸ List.mem_map_of_mem hmem
      obtain ⟨key', hkey', hheld⟩ := List.mem_map.1 hmem'
      exact hs hn.symm hheld ▸ hkey'

/-- `names` for different keys are different. -/
theorem Distinct.nodup_names (hs : s.Distinct) (hkeys : (requests.map Prod.fst).Nodup) :
    (s.names requests).1.Nodup :=
  (hs.names requests).nodup (by rw [map_some_names, List.map_map]; rfl) hkeys

/-- `names` can be asked for in two parts. -/
theorem names_append (s : NameSupply κ) (first rest : List (κ × String)) :
    s.names (first ++ rest) =
      ((s.names first).1 ++ ((s.names first).2.names rest).1,
        ((s.names first).2.names rest).2) := by
  induction first generalizing s with
  | nil => rfl
  | cons request first ih => rw [List.cons_append, names_cons, names_cons, ih, List.cons_append]

/-! ## Which names are handed out -/

/-- The legal form of the `wanted` name, which is handed out if nobody holds it. -/
def stem (spacer preferred : String) : String := legalName spacer (wanted preferred)

/-- `name` for a key without a name adds one to the names that are `live`. -/
private theorem live_name (h : s.held key = none) :
    (s.name key preferred).2.live = (s.name key preferred).1 :: s.live := by
  rcases s.name_cases key preferred with ⟨n, hheld, _⟩ | ⟨n, _, _, heq⟩
  · rw [h] at hheld
    cases hheld
  · rw [heq]
    rfl

/-- After `name` for a key without a name, what is `Reached` from its `stem` is held. -/
private theorem mem_live_name_iff (h : s.held key = none) :
    n ∈ (s.name key preferred).2.live ↔
      n ∈ s.live ∨ Reached s.live s.spacer (stem s.spacer preferred) n := by
  rcases s.name_cases key preferred with ⟨m, hheld, _⟩ | ⟨m, _, hm, heq⟩
  · rw [h] at hheld
    cases hheld
  · rw [live_name h, heq, List.mem_cons, hm, or_comm]
    exact s.mem_live_or_eq_fresh_iff _ n

/-- For keys without a name, `names` hands out those that are `Reached`, each with the names that
    are held when its key is asked for. -/
theorem mem_names_iff (hkeys : (requests.map Prod.fst).Nodup)
    (hnone : ∀ r ∈ requests, s.held r.1 = none) :
    n ∈ s.live ∨ n ∈ (s.names requests).1 ↔ n ∈ s.live ∨ ∃ k r, requests[k]? = some r ∧
      Reached (s.live ++ (s.names requests).1.take k) s.spacer (stem s.spacer r.2) n := by
  induction requests generalizing s with
  | nil => simp [names]
  | cons request rest ih =>
    obtain ⟨hkey, hkeys⟩ := List.nodup_cons.1 hkeys
    obtain ⟨hfirst, hrest⟩ := List.forall_mem_cons.1 hnone
    have hstill : ∀ r ∈ rest, (s.name request.1 request.2).2.held r.1 = none := by
      intro r hr
      have hne : r.1 ≠ request.1 := fun h => hkey (h ▸ List.mem_map_of_mem hr)
      rw [held_name, if_neg hne]
      exact hrest r hr
    have hfurther := ih hkeys hstill
    rw [spacer_name] at hfurther
    rw [names_cons]
    generalize hnew : s.name request.1 request.2 = new at *
    have hlive : new.2.live = new.1 :: s.live := hnew ▸ live_name hfirst
    have hmem : n ∈ new.2.live ↔ n ∈ s.live ∨ Reached s.live s.spacer (stem s.spacer request.2) n :=
      hnew ▸ mem_live_name_iff hfirst
    -- When the others are asked for, the first name is held already.
    have hshift (k : Nat) (base : String) :
        Reached (new.2.live ++ (new.2.names rest).1.take k) s.spacer base n ↔
          Reached (s.live ++ (new.1 :: (new.2.names rest).1).take (k + 1)) s.spacer base n := by
      rw [hlive]
      exact reached_congr fun _ => List.perm_middle.symm.mem_iff
    calc n ∈ s.live ∨ n ∈ new.1 :: (new.2.names rest).1
        ↔ n ∈ new.2.live ∨ n ∈ (new.2.names rest).1 := by
          rw [hlive, List.mem_cons, List.mem_cons, or_left_comm, or_assoc]
      _ ↔ n ∈ s.live ∨ Reached s.live s.spacer (stem s.spacer request.2) n ∨
            ∃ k r, rest[k]? = some r ∧
              Reached (new.2.live ++ (new.2.names rest).1.take k) s.spacer
                (stem s.spacer r.2) n := by
          rw [hfurther, hmem, or_assoc]
      _ ↔ _ := or_congr_right ?_
    constructor
    · rintro (h | ⟨k, r, hr, h⟩)
      · exact ⟨0, request, rfl, by rwa [List.take_zero, List.append_nil]⟩
      · exact ⟨k + 1, r, hr, (hshift k _).1 h⟩
    · rintro ⟨_ | k, r, hr, h⟩
      · obtain rfl := Option.some.inj hr
        rw [List.take_zero, List.append_nil] at h
        exact .inl h
      · exact .inr ⟨k, r, hr, (hshift k _).2 h⟩

end

/-! ## Names with a fixed meaning -/

/-- A `spacer` that is there and stands for every character as it is (`spacerFor_eq`). -/
def PlainSpacer (spacer : String) : Prop := spacer.toList ≠ [] ∧ '$' ∉ spacer.toList

/-- The default spacer is a `PlainSpacer`. -/
theorem plainSpacer_default : PlainSpacer "_" := ⟨by decide, by decide⟩

/-- Letters and digits are legal. -/
theorem isIllegal_of_isAlphanum {c : Char} (h : c.isAlphanum = true) : isIllegal c = false := by
  refine Bool.eq_false_iff.2 fun hill => ?_
  simp only [isIllegal, List.mem_cons, List.not_mem_nil, or_false, decide_eq_true_eq] at hill
  rcases hill with rfl | rfl | rfl | rfl | rfl | rfl <;> exact absurd h (by decide)

/-- Every character leaves something in `legalName`, itself or the spacer. -/
private theorem eq_nil_of_flatMap_spacer {spacer cs : List Char} (hspacer : spacer ≠ [])
    (h : cs.flatMap (fun c => if isIllegal c then spacer else [c]) = []) : cs = [] := by
  refine List.eq_nil_iff_forall_not_mem.2 fun c hc => ?_
  have hnil := List.flatMap_eq_nil_iff.1 h c hc
  by_cases hill : isIllegal c = true
  · rw [if_pos hill] at hnil
    exact hspacer hnil
  · rw [if_neg hill] at hnil
    cases hnil

/-- Only `A` itself becomes `A` by `legalName`. -/
theorem eq_of_legalName_eq {spacer name : String} (hspacer : PlainSpacer spacer)
    (h : legalName spacer name = "A") : name = "A" := by
  obtain ⟨hne, hdollar⟩ := hspacer
  have h := congrArg String.toList h
  simp only [legalName, String.toList_ofList, spacerFor_eq _ hdollar] at h
  by_cases hstart : startsLegally name.toList = true
  · rw [if_pos hstart] at h
    cases hname : name.toList with
    | nil =>
      rw [hname] at hstart
      cases hstart
    | cons c cs =>
      rw [hname] at hstart h
      -- The first character is a letter and stays, so nothing is left for those after it.
      rw [List.flatMap_cons, isIllegal_of_isAlphanum (Bool.or_eq_true_iff.2 (.inl hstart))] at h
      obtain ⟨rfl, hrest⟩ := List.cons.inj h
      rw [← String.toList_inj, hname, eq_nil_of_flatMap_spacer hne hrest]
      rfl
  · rw [if_neg hstart] at h
    -- The text starts with `i`.
    cases h

/-- `A` is never `wanted`. -/
theorem wanted_ne (preferred : String) : wanted preferred ≠ "A" := by
  unfold wanted reservedNames
  by_cases h : preferred = "A"
  · subst h
    decide
  · simp [h]

/-- `fresh` gives `A` only if that is what it is asked for. -/
theorem fresh_ne {s : NameSupply κ} (hspacer : PlainSpacer s.spacer) {base : String}
    (hbase : base ≠ "A") : s.fresh base ≠ "A" := by
  rcases s.fresh_cases base with ⟨_, hres⟩ | ⟨_, k, hres, _⟩
  · rwa [hres]
  · rw [hres]
    intro h
    -- A numbered variant has the spacer and a number after it, so it is longer.
    have hlen := congrArg String.length h
    have hspacerLen : 0 < s.spacer.length := by
      rw [← String.length_toList]
      exact List.length_pos_iff.2 hspacer.1
    have hnumber : 0 < (toString k).length := Nat.length_repr_pos
    rw [String.length_append, String.length_append] at hlen
    have hone : "A".length = 1 := rfl
    omega

section

variable [DecidableEq κ] {s : NameSupply κ}

/-- No key holds a name in `reservedNames`. -/
def Unreserved (s : NameSupply κ) : Prop :=
  ∀ ⦃key : κ⦄ ⦃n : String⦄, s.held key = some n → n ∉ reservedNames

/-- In a new supply nobody holds a name. -/
theorem unreserved_empty (spacer : String) : ({ spacer } : NameSupply κ).Unreserved :=
  fun _ _ h => nomatch h

/-- `name` keeps a supply `Unreserved`. -/
theorem Unreserved.name (hs : s.Unreserved) (hspacer : PlainSpacer s.spacer) (key : κ)
    (preferred : String) : (s.name key preferred).2.Unreserved := by
  rcases s.name_cases key preferred with ⟨n, _, heq⟩ | ⟨new, _, hnew, heq⟩
  · rwa [heq]
  · have hfirst : (s.name key preferred).1 = new := by rw [heq]
    intro k n hk
    rw [held_name, hfirst] at hk
    by_cases h : k = key
    · rw [if_pos h] at hk
      obtain rfl := Option.some.inj hk
      -- The wanted name is not `A`, nor is its legal form, nor a numbered variant of that.
      have hlegal : legalName s.spacer (wanted preferred) ≠ "A" :=
        fun h => wanted_ne preferred (eq_of_legalName_eq hspacer h)
      simpa [reservedNames, hnew] using fresh_ne hspacer hlegal
    · rw [if_neg h] at hk
      exact hs hk

/-- `names` keeps a supply `Unreserved`. -/
theorem Unreserved.names (hs : s.Unreserved) (hspacer : PlainSpacer s.spacer)
    (requests : List (κ × String)) : (s.names requests).2.Unreserved := by
  induction requests generalizing s with
  | nil => exact hs
  | cons request rest ih =>
    have hspacer' : PlainSpacer (s.name request.1 request.2).2.spacer := by rwa [spacer_name]
    exact ih (hs.name hspacer _ _) hspacer'

/-- So `names` does not hand out `A`. -/
theorem Unreserved.not_mem_names (hs : s.Unreserved) (hspacer : PlainSpacer s.spacer)
    (requests : List (κ × String)) : "A" ∉ (s.names requests).1 := by
  intro hmem
  have hheld : some "A" ∈ requests.map fun r => (s.names requests).2.held r.1 := by
    rw [← map_some_names]
    exact List.mem_map_of_mem hmem
  obtain ⟨r, _, hr⟩ := List.mem_map.1 hheld
  exact hs.names hspacer requests hr (by decide)

end

end NameSupply

end Warrant
