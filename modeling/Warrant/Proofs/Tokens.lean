import Warrant.Logic.Printer

/-!
# Tokens of printed text

A printed text consists of words, texts in quotes and marks, with spaces between.  `lex` splits a
text into them.  Words are made of all characters that the printed form does not use itself, so
letters and digits of any script among them.

* `lex_word`, `lex_mark`, `lex_quoted`: what is read first from a text that starts with a word, a
  mark or a quoted text.
* `isWordChar_of_isAlphanum`, `isWord_toString`: letters and digits make words, and so do numbers.
* `many_eq`: repeated reading gives back a list of items whose texts follow each other.
-/

namespace Warrant

/-- A piece of a printed text, as `lex` splits it. -/
inductive Token where
  | word (w : String)
  /-- A text in quotes. -/
  | quoted (s : String)
  /-- A single character that is no part of a word, or a symbol such as `\<forall>`. -/
  | mark (m : String)
  deriving DecidableEq

/-- Characters that the printed form uses between words. -/
def separators : List Char := " \\'()[]\x7b\x7d,.:=<>+-@|".toList

/-- Whether a character can be part of a word: all but the `separators` can. -/
def isWordChar (c : Char) : Bool := c ∉ separators

/-- `dropWhile` leaves no more characters, so that `lex` ends. -/
private theorem length_dropWhile_le (p : Char → Bool) (cs : List Char) :
    (cs.dropWhile p).length ≤ cs.length :=
  (List.dropWhile_sublist p).length_le

/-- Split a text into tokens.  Spaces are dropped. -/
def lex : List Char → List Token
  | [] => []
  | c :: cs =>
    if c = ' ' then lex cs
    else if isWordChar c then
      .word (.ofList (c :: cs.takeWhile isWordChar)) :: lex (cs.dropWhile isWordChar)
    else if c = '\\' then
      .mark (.ofList (c :: cs.takeWhile (· ≠ '>') ++ ['>'])) :: lex (cs.dropWhile (· ≠ '>')).tail
    else if c = '\'' ∧ cs.head? = some '\'' then
      .quoted (.ofList (cs.tail.takeWhile (· ≠ '\''))) ::
        lex ((cs.tail.dropWhile (· ≠ '\'')).drop 2)
    else .mark (.ofList [c]) :: lex cs
termination_by cs => cs.length
decreasing_by
  · simp
  · have := length_dropWhile_le isWordChar cs
    simp only [List.length_cons]
    omega
  · have := length_dropWhile_le (fun c => decide (c ≠ '>')) cs
    simp only [List.length_cons, List.length_tail]
    omega
  · have := length_dropWhile_le (fun c => decide (c ≠ '\'')) cs.tail
    simp only [List.length_cons, List.length_drop]
    simp only [List.length_tail] at this
    omega
  · simp

/-! ## What is read first -/

/-- A text `rest` that does not go on with a word. -/
def Boundary (rest : List Char) : Prop := ∀ c ∈ rest.head?, isWordChar c = false

/-- The end of the text is a `Boundary`. -/
private theorem boundary_nil : Boundary [] := fun _ h => nomatch h

/-- A text that starts with a separator is a `Boundary`. -/
private theorem boundary_cons {c : Char} (h : isWordChar c = false) (rest : List Char) :
    Boundary (c :: rest) := by
  intro c' hc'
  obtain rfl := Option.some.inj hc'
  exact h

/-- A word before a `Boundary` is all that `isWordChar` takes from the text. -/
private theorem takeWhile_append_boundary {w rest : List Char} (hw : ∀ c ∈ w, isWordChar c = true)
    (hrest : Boundary rest) : (w ++ rest).takeWhile isWordChar = w ∧
    (w ++ rest).dropWhile isWordChar = rest := by
  rw [List.takeWhile_append_of_pos hw, List.dropWhile_append_of_pos hw]
  cases rest with
  | nil => simp
  | cons c rest =>
    have hc : isWordChar c = false := hrest c rfl
    simp [hc]

/-- `lex` finds no token in an empty text. -/
@[simp] theorem lex_nil : lex [] = [] := by rw [lex]

/-- `lex` drops a space. -/
@[simp] theorem lex_space (rest : List Char) : lex (' ' :: rest) = lex rest := by
  rw [lex, if_pos rfl]

/-- Whether a text is a word: not empty, and each character an `isWordChar`. -/
def isWord (w : String) : Bool := !w.toList.isEmpty && w.toList.all isWordChar

/-- The two parts of `isWord` as propositions. -/
theorem isWord_iff {w : String} :
    isWord w = true ↔ w.toList ≠ [] ∧ ∀ c ∈ w.toList, isWordChar c = true := by
  simp [isWord]

/-- `lex` reads a word before a `Boundary` as one token. -/
theorem lex_word {w : String} (hw : isWord w = true) {rest : List Char} (hrest : Boundary rest) :
    lex (w.toList ++ rest) = .word w :: lex rest := by
  obtain ⟨hne, hall⟩ := isWord_iff.1 hw
  cases hlist : w.toList with
  | nil => exact absurd hlist hne
  | cons c cs =>
    rw [hlist] at hall
    have hc := hall c List.mem_cons_self
    have hspace : c ≠ ' ' := by
      rintro rfl
      exact absurd hc (by decide)
    -- Its first character starts the token, and the others are all that follows of it.
    obtain ⟨htake, hdrop⟩ := takeWhile_append_boundary (fun d hd =>
      hall d (List.mem_cons_of_mem _ hd)) hrest
    rw [List.cons_append, lex, if_neg hspace, if_pos hc, htake, hdrop, ← hlist,
      String.ofList_toList]

/-- Whether a text is a mark: a separator, or a symbol between a backslash and a closing angle
    bracket. -/
def isMark (m : String) : Bool :=
  match m.toList with
  | [c] => c ∈ separators && c ∉ [' ', '\\', '\'']
  | '\\' :: cs => cs.getLast? = some '>' && '>' ∉ cs.dropLast
  | _ => false

/-- `lex` reads a separator as a mark, but for those that start something longer. -/
private theorem lex_separator {c : Char} (hc : c ∈ separators) (hother : c ∉ [' ', '\\', '\''])
    (rest : List Char) : lex (c :: rest) = .mark (.ofList [c]) :: lex rest := by
  simp only [List.mem_cons, List.not_mem_nil, or_false, not_or] at hother
  obtain ⟨hspace, hbackslash, hquote⟩ := hother
  have hword : ¬isWordChar c = true := by simpa [isWordChar] using hc
  rw [lex, if_neg hspace, if_neg hword, if_neg hbackslash, if_neg fun h => hquote h.1]

/-- `lex` reads a symbol, up to its closing angle bracket, as one mark. -/
private theorem lex_symbol {body : List Char} (hbody : '>' ∉ body) (rest : List Char) :
    lex ('\\' :: body ++ '>' :: rest) = .mark (.ofList ('\\' :: body ++ ['>'])) :: lex rest := by
  have hall : ∀ c ∈ body, decide (c ≠ '>') = true := fun c hc => decide_eq_true fun h =>
    hbody (h ▸ hc)
  -- The reader stops at the first closing bracket, and the name of the symbol has none.
  have htake : (body ++ '>' :: rest).takeWhile (· ≠ '>') = body := by
    rw [List.takeWhile_append_of_pos hall]
    simp
  have hdrop : (body ++ '>' :: rest).dropWhile (· ≠ '>') = '>' :: rest := by
    rw [List.dropWhile_append_of_pos hall]
    simp
  rw [List.cons_append, lex, if_neg (by decide), if_neg (by decide), if_pos rfl, htake, hdrop]
  rfl

/-- `lex` reads a text that satisfies `isMark` as one token, whatever follows. -/
theorem lex_mark {m : String} (hm : isMark m = true) (rest : List Char) :
    lex (m.toList ++ rest) = .mark m :: lex rest := by
  unfold isMark at hm
  split at hm
  · next c hlist =>
    simp only [Bool.and_eq_true, decide_eq_true_eq] at hm
    rw [hlist, List.singleton_append, lex_separator hm.1 hm.2, ← hlist, String.ofList_toList]
  · next cs _ hlist =>
    simp only [Bool.and_eq_true, decide_eq_true_eq] at hm
    -- A symbol: a backslash, a name without the bracket, and the bracket.
    obtain ⟨body, rfl⟩ := List.getLast?_eq_some_iff.1 hm.1
    rw [List.dropLast_concat] at hm
    rw [hlist, ← List.cons_append, List.append_assoc, List.singleton_append, lex_symbol hm.2,
      List.cons_append, ← hlist, String.ofList_toList]
  · cases hm

/-- `lex` reads a text in quotes that has no quote in it as one token. -/
theorem lex_quoted {s : String} (hs : '\'' ∉ s.toList) (rest : List Char) :
    lex (("''" ++ s ++ "''").toList ++ rest) = .quoted s :: lex rest := by
  have hall : ∀ c ∈ s.toList, decide (c ≠ '\'') = true := fun c hc => decide_eq_true fun h =>
    hs (h ▸ hc)
  -- The text goes up to the first quote, which is the closing one.
  have htake : (s.toList ++ '\'' :: '\'' :: rest).takeWhile (· ≠ '\'') = s.toList := by
    rw [List.takeWhile_append_of_pos hall]
    simp
  have hdrop : (s.toList ++ '\'' :: '\'' :: rest).dropWhile (· ≠ '\'') = '\'' :: '\'' :: rest := by
    rw [List.dropWhile_append_of_pos hall]
    simp
  have hchars : ("''" ++ s ++ "''").toList ++ rest = '\'' :: '\'' ::
      (s.toList ++ '\'' :: '\'' :: rest) := by
    simp [String.toList_append]
  rw [hchars, lex, if_neg (by decide), if_neg (by decide), if_neg (by decide), if_pos ⟨rfl, rfl⟩,
    List.tail_cons, htake, hdrop, String.ofList_toList]
  rfl

/-! ## Letters and digits -/

/-- None of the `separators` is a letter or a digit, so these satisfy `isWordChar`. -/
theorem isWordChar_of_isAlphanum {c : Char} (h : c.isAlphanum = true) : isWordChar c = true := by
  unfold isWordChar
  refine decide_eq_true fun hmem => ?_
  have hnone : separators.all (fun c => !c.isAlphanum) = true := by decide
  simpa [h] using List.all_eq_true.1 hnone c hmem

/-- The characters of a printed number are its digits. -/
theorem toList_toString (n : Nat) : (toString n).toList = Nat.toDigits 10 n := String.toList_ofList

/-- A printed number is a word. -/
theorem isWord_toString (n : Nat) : isWord (toString n) = true := by
  rw [isWord_iff, toList_toString]
  refine ⟨Nat.toDigits_ne_nil, fun c hc => isWordChar_of_isAlphanum ?_⟩
  have hdigit : c.isDigit = true := Nat.isDigit_of_mem_toDigits (by decide) (by decide) hc
  simp [Char.isAlphanum, hdigit]

/-! ## What ends a word -/

/-- A text `rest` that does not go on with a word, and whose first token, if there is any, is one of
    `stops`. -/
structure Follows (stops : List Token) (rest : List Char) : Prop where
  boundary : Boundary rest
  first : ∀ t ∈ (lex rest).head?, t ∈ stops

/-- The end of the text `Follows` anything. -/
theorem follows_nil (stops : List Token) : Follows stops [] where
  boundary := boundary_nil
  first t ht := by simp at ht

/-- More tokens may stand first in `Follows`. -/
theorem Follows.mono {stops stops' : List Token} (h : stops ⊆ stops') {rest : List Char}
    (hrest : Follows stops rest) : Follows stops' rest :=
  ⟨hrest.boundary, fun t ht => h (hrest.first t ht)⟩

/-- The text `s` ends the word before it and is read as the token `t`, whatever stands after it. -/
structure Delimits (s : String) (t : Token) : Prop where
  boundary : ∀ rest, Boundary (s.toList ++ rest)
  lex_append : ∀ rest, lex (s.toList ++ rest) = t :: lex rest

/-- A text that starts with what `Delimits` a token `Follows`, if the token is one of `stops`. -/
theorem Delimits.follows {s : String} {t : Token} (h : Delimits s t) {stops : List Token}
    (ht : t ∈ stops) (rest : List Char) : Follows stops (s.toList ++ rest) where
  boundary := h.boundary rest
  first t' ht' := by
    rw [h.lex_append] at ht'
    obtain rfl := Option.some.inj ht'
    exact ht

/-- `lex` drops any number of spaces. -/
private theorem lex_spaces (n : Nat) (rest : List Char) :
    lex (List.replicate n ' ' ++ rest) = lex rest := by
  induction n with
  | zero => rfl
  | succ n ih => rw [List.replicate_succ, List.cons_append, lex_space, ih]

/-- A mark ends the word before it: it starts with one of the `separators`. -/
private theorem boundary_of_isMark {m : String} (hm : isMark m = true) (rest : List Char) :
    Boundary (m.toList ++ rest) := by
  unfold isMark at hm
  split at hm
  · next c hlist =>
    simp only [Bool.and_eq_true, decide_eq_true_eq] at hm
    rw [hlist]
    exact boundary_cons (by simpa [isWordChar] using hm.1) rest
  · next cs _ hlist =>
    rw [hlist]
    exact boundary_cons (by decide) _
  · cases hm

/-- A mark with spaces around it `Delimits` the token of the mark. -/
theorem delimits_of_isMark {s m : String} (hm : isMark m = true) (i j : Nat)
    (hs : s.toList = List.replicate i ' ' ++ m.toList ++ List.replicate j ' ') :
    Delimits s (.mark m) where
  boundary rest := by
    rw [hs, List.append_assoc, List.append_assoc]
    cases i with
    | zero => exact boundary_of_isMark hm _
    | succ i => exact boundary_cons (by decide) _
  lex_append rest := by
    rw [hs, List.append_assoc, List.append_assoc, lex_spaces, lex_mark hm, lex_spaces]

/-- A mark alone `Delimits` its token. -/
theorem delimits_mark {m : String} (hm : isMark m = true) : Delimits m (.mark m) :=
  delimits_of_isMark hm 0 0 (by simp)

theorem delimits_comma : Delimits ", " (.mark ",") := delimits_of_isMark (by decide) 0 1 (by decide)

theorem delimits_arrow : Delimits " \\<Rightarrow> " (.mark "\\<Rightarrow>") :=
  delimits_of_isMark (by decide) 1 1 (by decide)

theorem delimits_open : Delimits "(" (.mark "(") := delimits_mark (by decide)

theorem delimits_close : Delimits ")" (.mark ")") := delimits_mark (by decide)

/-- `lex` drops the space before a text. -/
theorem lex_space_append (rest : List Char) : lex (" ".toList ++ rest) = lex rest := lex_space rest

/-- A text that starts with a space is a `Boundary`. -/
theorem boundary_space (rest : List Char) : Boundary (" ".toList ++ rest) :=
  boundary_cons (by decide) rest

/-! ## Reading tokens -/

/-- What reads something from the start of a list of tokens and leaves the rest, or fails. -/
abbrev Reader (α : Type) := List Token → Option (α × List Token)

/-- What is left after the token `t`, which has to be the next one. -/
def after (t : Token) : List Token → Option (List Token)
  | [] => none
  | t' :: ts => if t' = t then some ts else none

/-- `after t` takes the token `t`. -/
@[simp] theorem after_self (t : Token) (ts : List Token) : after t (t :: ts) = some ts := if_pos rfl

/-- `after t` fails where another token is next, or none. -/
private theorem after_of_ne {t : Token} {ts : List Token} (h : ts.head? ≠ some t) :
    after t ts = none := by
  cases ts with
  | nil => rfl
  | cons t' ts =>
    have hne : t' ≠ t := fun heq => h (by rw [heq]; rfl)
    exact if_neg hne

/-- `after t` fails on a text that `Follows` tokens other than `t`. -/
theorem Follows.after_eq_none {stops : List Token} {rest : List Char} (h : Follows stops rest)
    {t : Token} (ht : t ∉ stops) : after t (lex rest) = none :=
  after_of_ne fun heq => ht (h.first t heq)

/-- Read items by `item`, at most `n` of them, as long as there are any. -/
def many {α : Type} (item : Reader α) : Nat → List Token → List α × List Token
  | 0, ts => ([], ts)
  | n + 1, ts =>
    match item ts with
    | none => ([], ts)
    | some (a, ts) => (a :: (many item n ts).1, (many item n ts).2)

/-- `many` reads nothing where `item` fails. -/
theorem many_eq_nil {α : Type} {item : Reader α} {ts : List Token} (h : item ts = none) (n : Nat) :
    many item n ts = ([], ts) := by
  cases n with
  | zero => rfl
  | succ n => rw [many, h]

/-- The texts `parts` after each other, each behind the separator `sep`. -/
def behind (sep : String) (parts : List String) : List Char :=
  parts.flatMap fun part => sep.toList ++ part.toList

/-- `behind` puts the first part behind a separator, before the others. -/
theorem behind_cons (sep part : String) (parts : List String) :
    behind sep (part :: parts) = sep.toList ++ (part.toList ++ behind sep parts) := by
  simp [behind]

/-- A text of parts with a separator between is the first part, and then each other part `behind` a
    separator. -/
theorem toList_intercalate_cons (sep first : String) (parts : List String) :
    (sep.intercalate (first :: parts)).toList = first.toList ++ behind sep parts := by
  induction parts generalizing first with
  | nil => simp [behind]
  | cons part parts ih =>
    rw [String.intercalate_cons_cons, String.toList_append, String.toList_append, ih, behind_cons,
      List.append_assoc]

/-- `behind` of two lists of parts is that of the one, followed by that of the other. -/
theorem behind_append (sep : String) (parts parts' : List String) :
    behind sep (parts ++ parts') = behind sep parts ++ behind sep parts' :=
  List.flatMap_append

/-- `behind` has one separator more than `String.intercalate`, in front. -/
theorem behind_eq_append (sep : String) {parts : List String} (hne : parts ≠ []) :
    behind sep parts = sep.toList ++ (sep.intercalate parts).toList := by
  cases parts with
  | nil => exact absurd rfl hne
  | cons part parts => rw [behind_cons, toList_intercalate_cons]

/-- For `lex` the space in front of `behind` does not count. -/
theorem lex_intercalate_space (parts : List String) (rest : List Char) :
    lex ((" ".intercalate parts).toList ++ rest) = lex (behind " " parts ++ rest) := by
  cases parts with
  | nil => simp [behind]
  | cons part parts =>
    rw [toList_intercalate_cons, behind_cons, List.append_assoc " ".toList, lex_space_append]

/-- Parts behind a separator that ends a word are a `Boundary`, if what comes after them is. -/
theorem boundary_behind {sep : String} (hsep : ∀ tail, Boundary (sep.toList ++ tail))
    {rest : List Char} (hrest : Boundary rest) (parts : List String) :
    Boundary (behind sep parts ++ rest) := by
  cases parts with
  | nil => exact hrest
  | cons part parts =>
    rw [behind_cons, List.append_assoc]
    exact hsep _

/-- What may follow the last of several parts behind a separator is the separator or what stands
    after them. -/
private theorem Delimits.follows_behind {sep : String} {t : Token} (hsep : Delimits sep t)
    {stops : List Token} (ht : t ∈ stops) {rest : List Char} (hrest : Follows stops rest)
    (parts : List String) : Follows stops (behind sep parts ++ rest) := by
  cases parts with
  | nil => exact hrest
  | cons part parts =>
    rw [behind_cons, List.append_assoc]
    exact hsep.follows ht _

/-- `many` reads back items whose texts follow each other, if each can be read where it stands and
    nothing can be read after the last. -/
theorem many_eq {α : Type} {item : Reader α} {sep : String} {text : α → String} {as : List α}
    {rest : List Char} {n : Nat}
    (hitem : ∀ earlier a later, as = earlier ++ a :: later →
      item (lex (sep.toList ++ ((text a).toList ++ (behind sep (later.map text) ++ rest)))) =
        some (a, lex (behind sep (later.map text) ++ rest)))
    (hend : item (lex rest) = none) (hn : as.length ≤ n) :
    many item n (lex (behind sep (as.map text) ++ rest)) = (as, lex rest) := by
  induction as generalizing n with
  | nil => exact many_eq_nil hend n
  | cons a as ih =>
    cases n with
    | zero => cases hn
    | succ n =>
      -- The first item is read before all others, which are read by induction.
      have hfirst := hitem [] a as rfl
      have hrest := ih (fun earlier b later heq => hitem (a :: earlier) b later (by rw [heq]; rfl))
        (Nat.le_of_succ_le_succ hn)
      rw [List.map_cons, behind_cons, List.append_assoc, List.append_assoc, many, hfirst]
      simp only [hrest]

/-- Read items by `item`, each after the token `sep`. -/
def more {α : Type} (sep : Token) (item : Reader α) : Nat → List Token → List α × List Token :=
  many fun ts => (after sep ts).bind item

/-- Read one item or more by `item`, with the token `sep` between. -/
def separated {α : Type} (sep : Token) (item : Reader α) (n : Nat) : Reader (List α) := fun ts =>
  match item ts with
  | none => none
  | some (a, ts) => some (a :: (more sep item n ts).1, (more sep item n ts).2)

section
variable {α : Type} {sepText : String} {sep : Token} (hsep : Delimits sepText sep) {item : Reader α}
  {text : α → String} {as : List α} {rest : List Char} {n : Nat}
include hsep

/-- `more` reads back items, each behind a separator. -/
theorem more_eq
    (hitem : ∀ earlier a later, as = earlier ++ a :: later →
      item (lex ((text a).toList ++ (behind sepText (later.map text) ++ rest))) =
        some (a, lex (behind sepText (later.map text) ++ rest)))
    (hend : (lex rest).head? ≠ some sep) (hn : as.length ≤ n) :
    more sep item n (lex (behind sepText (as.map text) ++ rest)) = (as, lex rest) := by
  refine many_eq (fun earlier a later heq => ?_) ?_ hn
  · rw [hsep.lex_append, after_self, Option.bind_some, hitem earlier a later heq]
  · rw [after_of_ne hend, Option.bind_none]

/-- `separated` reads back items with a separator between, if each can be read where it stands. -/
theorem separated_eq (hne : as ≠ [])
    (hitem : ∀ earlier a later, as = earlier ++ a :: later →
      item (lex ((text a).toList ++ (behind sepText (later.map text) ++ rest))) =
        some (a, lex (behind sepText (later.map text) ++ rest)))
    (hend : (lex rest).head? ≠ some sep) (hn : as.length ≤ n + 1) :
    separated sep item n (lex ((sepText.intercalate (as.map text)).toList ++ rest)) =
      some (as, lex rest) := by
  cases as with
  | nil => exact absurd rfl hne
  | cons a as =>
    have hfirst := hitem [] a as rfl
    have hmore := more_eq hsep
      (fun earlier b later heq => hitem (a :: earlier) b later (by rw [heq]; rfl)) hend
      (Nat.le_of_succ_le_succ hn)
    rw [List.map_cons, toList_intercalate_cons, List.append_assoc, separated, hfirst]
    simp only [hmore]

/-- `separated_eq` where each item can be read before a separator and before what stands after the
    last item. -/
theorem separated_eq_of_follows {stops : List Token} (hne : as ≠ [])
    (hitem : ∀ a ∈ as, ∀ tail, Follows (sep :: stops) tail →
      item (lex ((text a).toList ++ tail)) = some (a, lex tail))
    (hrest : Follows stops rest) (hstops : sep ∉ stops) (hn : as.length ≤ n + 1) :
    separated sep item n (lex ((sepText.intercalate (as.map text)).toList ++ rest)) =
      some (as, lex rest) := by
  refine separated_eq hsep hne (fun earlier a later heq => ?_)
    (fun h => hstops (hrest.first _ h)) hn
  exact hitem a (by rw [heq]; simp) _
    (hsep.follows_behind List.mem_cons_self (hrest.mono (List.subset_cons_self ..))
      (later.map text))

end

/-! ## Bounds on reading -/

/-- A bound on the `sizeOf` a list bounds its length. -/
theorem length_le_of_sizeOf_le {α : Type} [SizeOf α] {as : List α} {n : Nat} (hn : sizeOf as ≤ n) :
    as.length ≤ n := by
  induction as generalizing n with
  | nil => exact Nat.zero_le n
  | cons a as ih =>
    simp only [List.cons.sizeOf_spec] at hn
    have hlen := ih (Nat.le_refl (sizeOf as))
    simp only [List.length_cons]
    omega

/-- A bound on the `sizeOf` a list bounds that of its members. -/
theorem sizeOf_le_of_mem {α : Type} [SizeOf α] {a : α} {as : List α} {n : Nat} (ha : a ∈ as)
    (hn : sizeOf as ≤ n) : sizeOf a ≤ n :=
  Nat.le_trans (Nat.le_of_lt (List.sizeOf_lt_of_mem ha)) hn

end Warrant
