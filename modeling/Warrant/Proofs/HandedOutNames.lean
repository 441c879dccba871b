import Warrant.Proofs.LiveNames

/-!
# The names that are handed out

A name that is handed out is held already or is made up now, from the preferred name of the request.
So a name is handed out in a run exactly if some request of the run makes it up, and what all names
have in common has to be shown of made-up names only.

* `Makes`: a request makes up a name.
* `mem_answers_iff`: a name is handed out exactly if it is made up.
* `names_legal`: all names are legal, if the spacer is.
* `reserved_handed_out_iff`: when the name with a fixed meaning is handed out.
-/

namespace Warrant.NameSupply

variable {κ : Type}

/-! ## Legal names -/

/-- The characters that a name may not have, those of `isIllegal`. -/
def barred : List Char := ['@', '#', '^', '*', '!', '&']

/-- `isIllegal` holds of the characters in `barred`. -/
private theorem isIllegal_eq_false_iff {c : Char} : isIllegal c = false ↔ c ∉ barred :=
  decide_eq_false_iff_not

/-- A name is legal: it starts with an ASCII letter and has no `barred` character. -/
structure Legal (n : String) : Prop where
  start : ∃ c ∈ n.toList.head?, c.isAlpha = true
  chars : ∀ c ∈ barred, c ∉ n.toList

/-- A spacer that has no `barred` character and stands for every character as it is. -/
def LegalSpacer (spacer : String) : Prop := ∀ c ∈ '$' :: barred, c ∉ spacer.toList

/-- The text that `legalName` makes legal starts with a letter: it is the name, or has `isa` in
    front of it. -/
private theorem exists_start (spacer name : String) :
    ∃ c cs, c.isAlpha = true ∧
      (if startsLegally name.toList then name.toList
        else "isa".toList ++ spacer.toList ++ name.toList) = c :: cs := by
  cases hstart : startsLegally name.toList with
  | false => exact ⟨'i', 's' :: 'a' :: (spacer.toList ++ name.toList), by decide, rfl⟩
  | true =>
    cases hname : name.toList with
    | nil =>
      rw [hname] at hstart
      cases hstart
    | cons c cs =>
      rw [hname] at hstart
      exact ⟨c, cs, hstart, rfl⟩

/-- `legalName` is `Legal`, with a legal spacer. -/
private theorem legal_legalName {spacer : String} (hspacer : LegalSpacer spacer) (name : String) :
    Legal (legalName spacer name) := by
  obtain ⟨hdollar, hbarred⟩ := List.forall_mem_cons.1 hspacer
  have hchars : (legalName spacer name).toList = _ := String.toList_ofList
  simp only [spacerFor_eq _ hdollar] at hchars
  obtain ⟨c, cs, halpha, hstart⟩ := exists_start spacer name
  rw [hstart] at hchars
  constructor
  · -- The first letter is legal, so it stays.
    rw [hchars, List.flatMap_cons, isIllegal_of_isAlphanum (Bool.or_eq_true_iff.2 (.inl halpha))]
    exact ⟨c, rfl, halpha⟩
  · intro d hd hmem
    rw [hchars, List.mem_flatMap] at hmem
    obtain ⟨e, _, hmem⟩ := hmem
    -- A character has stayed or comes from the spacer.
    cases he : isIllegal e with
    | true =>
      rw [he] at hmem
      exact hbarred d hd hmem
    | false =>
      rw [he] at hmem
      obtain rfl := List.mem_singleton.1 hmem
      exact isIllegal_eq_false_iff.1 he hd

/-- A `Legal` name stays legal with a number after it. -/
private theorem Legal.numbered {n spacer : String} (h : Legal n) (hspacer : LegalSpacer spacer)
    (i : Nat) : Legal (n ++ spacer ++ toString i) := by
  constructor
  · obtain ⟨c, hc, halpha⟩ := h.start
    refine ⟨c, ?_, halpha⟩
    rw [String.toList_append, String.toList_append, List.append_assoc, List.head?_append,
      Option.mem_def.1 hc]
    rfl
  · intro c hc hmem
    rw [String.toList_append, String.toList_append, List.mem_append, List.mem_append] at hmem
    -- A character is one of the name, of the spacer or a digit.
    rcases hmem with (hmem | hmem) | hmem
    · exact h.chars c hc hmem
    · exact hspacer c (List.mem_cons_of_mem _ hc) hmem
    · have hlegal := isIllegal_of_isAlphanum
          (Bool.or_eq_true_iff.2 (.inr (isDigit_of_mem_toString hmem)))
      exact isIllegal_eq_false_iff.1 hlegal hc

/-- `NameSupply.fresh` gives a `Legal` name for a legal one. -/
private theorem legal_fresh {s : NameSupply κ} (hspacer : LegalSpacer s.spacer) {base : String}
    (hbase : Legal base) : Legal (s.fresh base) := by
  rcases s.fresh_cases base with ⟨_, hres⟩ | ⟨_, i, hres, _⟩
  · rwa [hres]
  · rw [hres]
    exact hbase.numbered hspacer i

section

variable [DecidableEq κ] {s : NameSupply κ} {r : Request κ} {requests : List (Request κ)}
  {n : String}

/-! ## Made-up names -/

/-- What `localName` answers, and the spacer afterwards. -/
private theorem localName_cases (s : NameSupply κ) (key : κ) (preferred : String) :
    (s.scopes = [] ∧ s.localName key preferred = s.name key preferred) ∨
    ((s.localName key preferred).2.spacer = s.spacer ∧ s.scopes ≠ [] ∧
      (s.scopes.findSome? (·.lookup key) = none →
        (s.localName key preferred).1 = s.fresh (legalName s.spacer preferred))) := by
  unfold localName
  cases hscopes : s.scopes with
  | nil => exact .inl ⟨rfl, rfl⟩
  | cons innermost outer =>
    refine .inr ?_
    cases hheld : (innermost :: outer).findSome? (·.lookup key) with
    | some held => exact ⟨rfl, List.cons_ne_nil _ _, fun h => by cases h⟩
    | none => exact ⟨rfl, List.cons_ne_nil _ _, fun _ => rfl⟩

/-- The request `r` makes up the name `n`: it finds none, so it gives a free variant of the legal
    form of the preferred name.  Only where it looks at the global table it avoids names with a
    fixed meaning. -/
def Makes (s : NameSupply κ) (r : Request κ) (n : String) : Prop :=
  ∃ key preferred, (r = .name key preferred ∨ r = .localName key preferred) ∧
    s.found? r key = none ∧
    n = s.fresh (legalName s.spacer (if s.asksGlobal r then wanted preferred else preferred))

/-- `NameSupply.name` makes up a name for a key that has none. -/
private theorem name_answer {key : κ} (h : s.held key = none) (preferred : String) :
    (s.name key preferred).1 = s.fresh (legalName s.spacer (wanted preferred)) := by
  rcases s.name_cases key preferred with ⟨held, hheld, _⟩ | ⟨_, _, rfl, heq⟩
  · rw [h] at hheld
    cases hheld
  · rw [heq]

/-- The name that a request `Makes` up is the answer to it. -/
theorem Makes.answer (h : s.Makes r n) : (s.step r).1 = some n := by
  obtain ⟨key, preferred, rfl | rfl, hnone, rfl⟩ := h
  · exact congrArg some (name_answer hnone preferred)
  · show some (s.localName key preferred).1 = _
    -- Without an open scope a local name is a global one.
    rcases s.localName_cases key preferred with ⟨hscopes, heq⟩ | ⟨_, hscopes, hanswer⟩
    · have hglobal : s.asksGlobal (.localName key preferred) = true := by simp [asksGlobal, hscopes]
      rw [found?, if_pos hglobal] at hnone
      rw [heq, if_pos hglobal, name_answer hnone]
    · have hlocal : ¬s.asksGlobal (.localName key preferred) = true := by
        simpa [asksGlobal] using hscopes
      rw [found?, if_neg hlocal] at hnone
      rw [if_neg hlocal, hanswer hnone]

/-- A name that `step` hands out is held already or made up. -/
private theorem mem_live_or_makes (h : (s.step r).1 = some n) : n ∈ s.live ∨ s.Makes r n := by
  -- A request that finds nothing makes up some name, and that is its answer.
  have hmakes {key : κ} {preferred : String}
      (hr : r = .name key preferred ∨ r = .localName key preferred)
      (hnone : s.found? r key = none) : s.Makes r n := by
    have hmade : s.Makes r _ := ⟨key, preferred, hr, hnone, rfl⟩
    obtain rfl := Option.some.inj (h.symm.trans hmade.answer)
    exact hmade
  have hcases {key : κ} {preferred : String}
      (hr : r = .name key preferred ∨ r = .localName key preferred) :
      n ∈ s.live ∨ s.Makes r n := by
    have hkey : r.key? = some key := by rcases hr with rfl | rfl <;> rfl
    rcases answer_cases hkey h with hfound | ⟨hnone, _⟩
    · obtain ⟨place, hplace, _⟩ := nameAt_of_found? hfound
      exact .inl (mem_live_of_nameAt hplace)
    · exact .inr (hmakes hr hnone)
  cases r with
  | name key preferred => exact hcases (.inl rfl)
  | localName key preferred => exact hcases (.inr rfl)
  | openScope | closeScope => cases h

/-- A name that is `live` after a request was so before or is the answer. -/
private theorem mem_live_step (h : n ∈ (s.step r).2.live) : n ∈ s.live ∨ (s.step r).1 = some n := by
  have heffect := s.step_effect r
  obtain ⟨table, htable, hn⟩ := mem_live_iff.1 h
  rw [mem_live_iff]
  generalize (s.step r).1 = answer at heffect ⊢
  generalize (s.step r).2.tables = ts at heffect htable
  cases heffect with
  | found _ _ | kept _ =>
    -- Only a request that gives a name adds one to a table.
    exact .inl ⟨table, htable, hn⟩
  | opened _ =>
    rcases List.mem_append.1 htable with htable | hempty
    · exact .inl ⟨table, htable, hn⟩
    · rw [List.mem_singleton.1 hempty] at hn
      cases hn
  | closed _ htables => exact .inl ⟨table, htables ▸ List.mem_append_left _ htable, hn⟩
  | @given key new outer inner changed _ _ _ htables _ =>
    rw [htables]
    rcases List.mem_append.1 htable with houter | hrest
    · exact .inl ⟨table, List.mem_append_left _ houter, hn⟩
    · rcases List.mem_cons.1 hrest with rfl | hinner
      · rcases List.mem_cons.1 hn with rfl | hn
        · exact .inr rfl
        · exact .inl ⟨changed, by simp, hn⟩
      · exact .inl ⟨table, by simp [hinner], hn⟩

/-- `step` keeps the spacer. -/
private theorem spacer_step (s : NameSupply κ) (r : Request κ) :
    (s.step r).2.spacer = s.spacer := by
  cases r with
  | name key preferred => exact spacer_name
  | localName key preferred =>
    rcases s.localName_cases key preferred with ⟨_, heq⟩ | ⟨hspacer, _⟩
    · exact (congrArg (·.2.spacer) heq).trans spacer_name
    · exact hspacer
  | openScope | closeScope => rfl

/-! ## Runs -/

/-- `run` keeps the spacer. -/
@[simp] theorem spacer_run (s : NameSupply κ) (requests : List (Request κ)) :
    (s.run requests).2.spacer = s.spacer := by
  induction requests generalizing s with
  | nil => rfl
  | cons r requests ih => exact (ih (s.step r).2).trans (s.spacer_step r)

/-- `run` of two lists of requests, one after the other. -/
private theorem run_append (s : NameSupply κ) (first rest : List (Request κ)) :
    s.run (first ++ rest) =
      ((s.run first).1 ++ ((s.run first).2.run rest).1, ((s.run first).2.run rest).2) := by
  induction first generalizing s with
  | nil => rfl
  | cons r first ih =>
    show ((s.step r).1 :: ((s.step r).2.run (first ++ rest)).1,
      ((s.step r).2.run (first ++ rest)).2) = _
    rw [ih]
    rfl

/-- What is `live` after a run was so before or was handed out. -/
private theorem mem_live_run (h : n ∈ (s.run requests).2.live) :
    n ∈ s.live ∨ some n ∈ (s.run requests).1 := by
  induction requests generalizing s with
  | nil => exact .inl h
  | cons r requests ih =>
    rcases ih h with hlive | hanswer
    · rcases mem_live_step hlive with hlive | hanswer
      · exact .inl hlive
      · exact .inr (hanswer ▸ List.mem_cons_self)
    · exact .inr (List.mem_cons_of_mem _ hanswer)

/-- What is handed out in a run was `live` before or some request `Makes` it up. -/
private theorem mem_live_or_exists_makes (h : some n ∈ (s.run requests).1) :
    n ∈ s.live ∨ ∃ before r after, requests = before ++ r :: after ∧
      (s.run before).2.Makes r n := by
  induction requests generalizing s with
  | nil => cases h
  | cons r requests ih =>
    have hfirst (hanswer : (s.step r).1 = some n) :
        n ∈ s.live ∨ ∃ before r' after, r :: requests = before ++ r' :: after ∧
          (s.run before).2.Makes r' n := by
      rcases mem_live_or_makes hanswer with hlive | hmakes
      · exact .inl hlive
      · exact .inr ⟨[], r, requests, rfl, hmakes⟩
    rcases List.mem_cons.1 h with hanswer | hrest
    · exact hfirst hanswer.symm
    · rcases ih hrest with hlive | ⟨before, r', after, rfl, hmakes⟩
      · -- What the first request leaves was there before it, or it is its answer.
        rcases mem_live_step hlive with hlive | hanswer
        · exact .inl hlive
        · exact hfirst hanswer
      · exact .inr ⟨r :: before, r', after, rfl, hmakes⟩

/-- A name is handed out in a `run` exactly if some request `Makes` it up. -/
theorem mem_answers_iff (spacer : String) (requests : List (Request κ)) (n : String) :
    some n ∈ (run { spacer } requests : _ × NameSupply κ).1 ↔
      ∃ before r after, requests = before ++ r :: after ∧ (run { spacer } before).2.Makes r n := by
  constructor
  · intro h
    rcases mem_live_or_exists_makes h with hlive | hmakes
    · cases hlive
    · exact hmakes
  · rintro ⟨before, r, after, rfl, hmakes⟩
    rw [run_append]
    exact List.mem_append_right _ (hmakes.answer ▸ List.mem_cons_self)

/-- With a `LegalSpacer`, which may be empty, every name that is handed out is `Legal`, whatever
    names are preferred and whatever was asked before. -/
theorem names_legal {spacer : String} (hspacer : LegalSpacer spacer) (requests : List (Request κ))
    {n : String} (h : some n ∈ (run { spacer } requests : _ × NameSupply κ).1) : Legal n := by
  obtain ⟨before, r, after, rfl, key, preferred, _, _, rfl⟩ :=
    (mem_answers_iff spacer requests n).1 h
  have hspacer' : LegalSpacer (run { spacer } before : _ × NameSupply κ).2.spacer := by
    rw [spacer_run]
    exact hspacer
  exact legal_fresh hspacer' (legal_legalName hspacer' _)

end

/-- Names that are empty, start with no letter or have illegal characters, asked for without a
    spacer. -/
def oddRequests : List (Request Nat) :=
  [.name 0 "", .openScope, .localName 1 "é@x", .localName 2 "A#", .localName 2 "!", .name 3 "isa",
    .localName 4 "^"]

/-- The names for `oddRequests` are all `Legal`, and one key has the same name twice. -/
theorem names_legal_odd :
    (run { spacer := "" } oddRequests : _ × NameSupply Nat).1 =
      [some "isa", none, some "isaéx", some "A", some "A", some "isa0", some "isa1"] ∧
    LegalSpacer "" ∧ ∀ n ∈ ["isa", "isaéx", "A", "isa0", "isa1"], Legal n := by
  have hanswers : (run { spacer := "" } oddRequests : _ × NameSupply Nat).1 =
      [some "isa", none, some "isaéx", some "A", some "A", some "isa0", some "isa1"] := by
    with_unfolding_all rfl
  have hspacer : LegalSpacer "" := fun c _ => List.not_mem_nil
  refine ⟨hanswers, hspacer, fun n hn => names_legal hspacer oddRequests ?_⟩
  rw [hanswers]
  revert n
  decide

/-! ## The name with a fixed meaning -/

/-- `legalName` leaves the name with a fixed meaning as it is. -/
private theorem legalName_reserved (spacer : String) : legalName spacer "A" = "A" := rfl

/-- `NameSupply.fresh` gives `A` only for that name, if it is free. -/
private theorem fresh_eq_iff {s : NameSupply κ} (hspacer : PlainSpacer s.spacer) {base : String} :
    s.fresh base = "A" ↔ base = "A" ∧ "A" ∉ s.live := by
  constructor
  · intro h
    have hbase : base = "A" := Decidable.byContradiction fun hne => fresh_ne hspacer hne h
    exact ⟨hbase, h ▸ s.fresh_not_mem_live base⟩
  · rintro ⟨rfl, hfree⟩
    exact if_neg hfree

section

variable [DecidableEq κ]

/-- A request `Makes` up `A` if it asks for a local name, prefers that and no open scope has a name
    for the key, unless `A` is held.  No other request does. -/
private theorem makes_reserved_iff {s : NameSupply κ} (hspacer : PlainSpacer s.spacer)
    {r : Request κ} :
    s.Makes r "A" ↔ ∃ key, r = .localName key "A" ∧ s.scopes ≠ [] ∧
      (∀ scope ∈ s.scopes, scope.lookup key = none) ∧ "A" ∉ s.live := by
  constructor
  · rintro ⟨key, preferred, hr, hnone, heq⟩
    obtain ⟨hlegal, hfree⟩ := (fresh_eq_iff hspacer).1 heq.symm
    have hbase := eq_of_legalName_eq hspacer hlegal
    -- Where the global table is asked, another name is wanted in place of `A`.
    cases hglobal : s.asksGlobal r with
    | true =>
      rw [if_pos hglobal] at hbase
      exact absurd hbase (wanted_ne preferred)
    | false =>
      rw [hglobal] at hbase
      obtain rfl : preferred = "A" := hbase
      rw [found?, hglobal] at hnone
      rcases hr with rfl | rfl
      · cases hglobal
      · exact
          ⟨key, rfl, by simpa [asksGlobal] using hglobal, List.findSome?_eq_none_iff.1 hnone, hfree⟩
  · rintro ⟨key, rfl, hscopes, hnone, hfree⟩
    have hlocal : s.asksGlobal (.localName key "A") = false := by simpa [asksGlobal] using hscopes
    refine ⟨key, "A", .inr rfl, ?_, ?_⟩
    · rw [found?, hlocal]
      exact List.findSome?_eq_none_iff.2 hnone
    · rw [hlocal]
      exact ((fresh_eq_iff hspacer).2 ⟨legalName_reserved s.spacer, hfree⟩).symm

/-- With a `PlainSpacer` the name `A` is handed out exactly if some request prefers it as a local
    name while a scope is open, for a key that has no name in the open scopes. -/
theorem reserved_handed_out_iff {spacer : String} (hspacer : PlainSpacer spacer)
    (requests : List (Request κ)) :
    some "A" ∈ (run { spacer } requests : _ × NameSupply κ).1 ↔
      ∃ before key after, requests = before ++ .localName key "A" :: after ∧
        (run { spacer } before : _ × NameSupply κ).2.scopes ≠ [] ∧
        ∀ scope ∈ (run { spacer } before : _ × NameSupply κ).2.scopes, scope.lookup key = none := by
  have hplain (before : List (Request κ)) :
      PlainSpacer (run { spacer } before : _ × NameSupply κ).2.spacer := by
    rw [spacer_run]
    exact hspacer
  constructor
  · intro h
    obtain ⟨before, r, after, rfl, hmakes⟩ := (mem_answers_iff spacer requests "A").1 h
    obtain ⟨key, rfl, hscopes, hnone, _⟩ := (makes_reserved_iff (hplain before)).1 hmakes
    exact ⟨before, key, after, rfl, hscopes, hnone⟩
  · rintro ⟨before, key, after, rfl, hscopes, hnone⟩
    by_cases hlive : "A" ∈ (run { spacer } before : _ × NameSupply κ).2.live
    · -- It is held, so it was handed out before.
      rcases mem_live_run hlive with hempty | hanswer
      · cases hempty
      · rw [run_append]
        exact List.mem_append_left _ hanswer
    · have hmakes := (makes_reserved_iff (hplain before)).2 ⟨key, rfl, hscopes, hnone, hlive⟩
      exact (mem_answers_iff spacer _ "A").2 ⟨before, _, after, rfl, hmakes⟩

end

/-- Requests that come close: global ones that prefer `A`, and local ones that prefer `A` with an
    illegal character. -/
def closeRequests : List (Request Nat) :=
  [.name 0 "A", .openScope, .localName 1 "A@", .name 2 "A", .localName 3 "#A"]

/-- None of `closeRequests` gets the name `A`, and a local one that prefers it does after them. -/
theorem reserved_handed_out_close :
    PlainSpacer "_" ∧ some "A" ∉ (run {} closeRequests : _ × NameSupply Nat).1 ∧
      some "A" ∈ (run {} (closeRequests ++ [.localName 4 "A"]) : _ × NameSupply Nat).1 := by
  refine ⟨plainSpacer_default, fun h => ?_, ?_⟩
  · obtain ⟨before, key, after, heq, _⟩ := (reserved_handed_out_iff plainSpacer_default _).1 h
    have hmem : Request.localName key "A" ∈ closeRequests := heq ▸ by simp
    simp [closeRequests] at hmem
  · exact (reserved_handed_out_iff plainSpacer_default _).2
      ⟨closeRequests, 4, [], rfl, by decide, by decide⟩

/-- A local name can be `A`, which has a fixed meaning, where a global one gets another ending. -/
theorem reserved_handed_out :
    LegalSpacer "_" ∧
      (run {} [.name 0 "A", .openScope, .localName 0 "A", .localName 1 "A"] :
          _ × NameSupply Nat).1 =
        [some "AZZ", none, some "A", some "A_0"] :=
  ⟨by simp [LegalSpacer, barred], by decide⟩

end Warrant.NameSupply
