/-! # Settings written in TOML

A configuration is written as a TOML document of entries `key = value`.  A setting is a text, a
truth value or a list of texts, and a key is a single name; so of TOML only these are read, and a
document with numbers, dates or tables is refused like one that is not TOML at all.

* `settings?` reads a document: entries, blank lines and comments, each ended by a line break or the
  end.
* Texts stand in double or single quotes, one mark for a text on one line and three for a text on
  several.  Double quotes allow escapes; in the long form a backslash at the end of a line joins it
  to the next text.
* Lists may be spread over lines, have comments in them and end with a comma.

Each reader takes characters and returns what it has read with the rest; the lemmas `length_*` say
that the rest is shorter, so that reading ends. -/

namespace Warrant.Toml

/-- The value of a setting in `settings?`. -/
inductive Value where
  | text (s : String)
  | flag (b : Bool)
  | list (items : List String)
  deriving DecidableEq, Repr

/-! ## Characters -/

/-- Blanks may separate the parts of a line. -/
def isBlank (c : Char) : Bool := c = ' ' || c = '\t'

/-- The characters of comments and of texts: all but control characters, of which the tab is
    allowed. -/
def isPrintable (c : Char) : Bool := c = '\t' || (' ' ≤ c && c ≠ '\x7f')

/-- The characters of a key that is not quoted. -/
def isBare (c : Char) : Bool := c.isAlphanum || c = '_' || c = '-'

/-- The value of the hexadecimal digit `c`. -/
def hexDigit? (c : Char) : Option Nat :=
  if '0' ≤ c && c ≤ '9' then some (c.toNat - '0'.toNat)
  else if 'a' ≤ c && c ≤ 'f' then some (c.toNat - 'a'.toNat + 10)
  else if 'A' ≤ c && c ≤ 'F' then some (c.toNat - 'A'.toNat + 10)
  else none

/-- The character with the code `code`, if it is one. -/
def charOf? (code : Nat) : Option Char := if code.isValidChar then some (.ofNat code) else none

/-- The character that the escape by the letter `c` stands for. -/
def shortEscape? (c : Char) : Option Char :=
  [('b', '\x08'), ('t', '\t'), ('n', '\n'), ('f', '\x0c'), ('r', '\r'), ('"', '"'),
    ('\\', '\\')].lookup c

/-! ## Line breaks and comments -/

/-- The rest after a line break, if there is one. -/
def newline? : List Char → Option (List Char)
  | '\n' :: rest => some rest
  | '\r' :: '\n' :: rest => some rest
  | _ => none

/-- The rest after blanks (`isBlank`) and perhaps a comment. -/
def skipComment (cs : List Char) : List Char :=
  match cs.dropWhile isBlank with
  | '#' :: rest => rest.dropWhile isPrintable
  | rest => rest

/-- The rest after the end of a line: blanks, perhaps a comment (`skipComment`), and a line break or
    the end of the document. -/
def lineEnd? (cs : List Char) : Option (List Char) :=
  match skipComment cs with
  | [] => some []
  | rest => newline? rest

/-- The rest after blanks, line breaks and comments; `inComment` says whether a comment has
    started. -/
def skipGaps : (inComment : Bool) → List Char → List Char
  | _, [] => []
  | inComment, c :: rest =>
    if (newline? (c :: rest)).isSome then skipGaps false rest
    else if inComment then if isPrintable c then skipGaps true rest else c :: rest
    else if isBlank c then skipGaps false rest
    else if c = '#' then skipGaps true rest
    else c :: rest

/-! ## Texts -/

/-- A way to quote a text for `quoted?`. -/
structure Quote where
  mark : Char
  /-- Backslashes are escapes (`shortEscape?`). -/
  escapes : Bool
  /-- Three marks, around text on several lines. -/
  long : Bool

/-- Where `quoted?` is in a quoted text. -/
inductive Mode where
  | plain
  /-- After a backslash at the end of a line: blanks and line breaks are dropped. -/
  | joining
  /-- In an escape by code, with `left` digits to come. -/
  | code (left value : Nat)
  deriving DecidableEq

/-- What the marks after a `mark` in a long text say: that the text ends there, with up to two marks
    before its end. -/
def longEnd? (mark : Char) : List Char → Option (List Char × List Char)
  | a :: b :: rest =>
    if a = mark && b = mark then
      match rest with
      | c :: d :: rest' =>
        if c = mark && d = mark then some ([mark, mark], rest')
        else if c = mark then some ([mark], d :: rest')
        else some ([], rest)
      | [c] => if c = mark then some ([mark], []) else some ([], rest)
      | [] => some ([], [])
    else none
  | _ => none

/-- Put the item `a` in front of what is `read`. -/
def push {α : Type} (a : α) (read : Option (List α × List Char)) : Option (List α × List Char) :=
  read.map fun (items, rest) => (a :: items, rest)

/-- The text up to the end of the quotes `q`, and the rest after them. -/
def quoted? (q : Quote) : Mode → List Char → Option (List Char × List Char)
  | _, [] => none
  | .code left value, c :: rest =>
    match hexDigit? c with
    | none => none
    | some digit =>
      if left > 1 then quoted? q (.code (left - 1) (value * 16 + digit)) rest
      else
        match charOf? (value * 16 + digit) with
        | some x => push x (quoted? q .plain rest)
        | none => none
  | mode, c :: rest =>
    if mode = .joining && (isBlank c || (newline? (c :: rest)).isSome) then quoted? q .joining rest
    else if c = q.mark then
      if q.long then
        match longEnd? q.mark rest with
        | some r => some r
        | none => push c (quoted? q .plain rest)
      else some ([], rest)
    else if q.escapes && c = '\\' then
      match rest with
      | [] => none
      | e :: rest' =>
        if e = 'u' then quoted? q (.code 4 0) rest'
        else if e = 'U' then quoted? q (.code 8 0) rest'
        else
          match shortEscape? e with
          | some x => push x (quoted? q .plain rest')
          | none =>
            if q.long && (newline? ((e :: rest').dropWhile isBlank)).isSome
              then quoted? q .joining rest'
            else none
    else if q.long && c = '\n' then push c (quoted? q .plain rest)
    else if q.long && (newline? (c :: rest)).isSome then quoted? q .plain rest
    else if isPrintable c then push c (quoted? q .plain rest)
    else none

/-- A line break right after the opening marks of a long text is not part of it. -/
def dropNewline (cs : List Char) : List Char := (newline? cs).getD cs

/-- A text on one line, with one mark at each end. -/
def shortText? : List Char → Option (List Char × List Char)
  | '"' :: rest => quoted? ⟨'"', true, false⟩ .plain rest
  | '\'' :: rest => quoted? ⟨'\'', false, false⟩ .plain rest
  | _ => none

/-- A text, with three marks at each end or as `shortText?`. -/
def text? : List Char → Option (List Char × List Char)
  | '"' :: '"' :: '"' :: rest => quoted? ⟨'"', true, true⟩ .plain (dropNewline rest)
  | '\'' :: '\'' :: '\'' :: rest => quoted? ⟨'\'', false, true⟩ .plain (dropNewline rest)
  | cs => shortText? cs

/-! ## The rest is shorter -/

/-- What `dropWhile` leaves is no longer than the whole. -/
private theorem length_dropWhile (p : Char → Bool) (cs : List Char) :
    (cs.dropWhile p).length ≤ cs.length :=
  (List.dropWhile_sublist p).length_le

/-- `newline?` takes at least one character. -/
private theorem length_newline? {cs rest : List Char} (h : newline? cs = some rest) :
    rest.length < cs.length := by
  unfold newline? at h
  grind

/-- `dropNewline` adds nothing to the rest. -/
private theorem length_dropNewline (cs : List Char) : (dropNewline cs).length ≤ cs.length := by
  unfold dropNewline
  cases h : newline? cs with
  | none => simp
  | some rest => simpa using Nat.le_of_lt (length_newline? h)

/-- `skipComment` adds nothing to the rest. -/
private theorem length_skipComment (cs : List Char) : (skipComment cs).length ≤ cs.length := by
  have hblank := length_dropWhile isBlank cs
  unfold skipComment
  split
  · next rest heq =>
    have hnote := length_dropWhile isPrintable rest
    rw [heq, List.length_cons] at hblank
    omega
  · exact hblank

/-- `lineEnd?` takes at least one character, except at the end of the document. -/
private theorem length_lineEnd? {cs rest : List Char} (h : lineEnd? cs = some rest) :
    rest.length ≤ cs.length - 1 := by
  have := length_skipComment cs
  unfold lineEnd? at h
  split at h
  · simp [← Option.some.inj h]
  · have := length_newline? h
    omega

/-- `skipGaps` adds nothing to the rest. -/
private theorem length_skipGaps (inComment : Bool) (cs : List Char) :
    (skipGaps inComment cs).length ≤ cs.length := by
  fun_induction skipGaps inComment cs <;> grind

/-- `longEnd?` takes at least one of the marks. -/
private theorem length_longEnd? {mark : Char} {cs : List Char} {r : List Char × List Char}
    (h : longEnd? mark cs = some r) : r.2.length < cs.length := by
  unfold longEnd? at h
  grind

/-- `push` leaves the rest of what was read as it is. -/
private theorem eq_some_of_push {α : Type} {a : α} {read : Option (List α × List Char)}
    {r : List α × List Char} (h : push a read = some r) : ∃ items, read = some (items, r.2) := by
  obtain ⟨⟨items, rest⟩, hread, rfl⟩ := Option.map_eq_some_iff.1 h
  exact ⟨items, hread⟩

/-- The rest after `quoted?` is shorter than what was read. -/
private theorem length_quoted? {q : Quote} {mode : Mode} {cs : List Char}
    {r : List Char × List Char} (h : quoted? q mode cs = some r) : r.2.length < cs.length := by
  fun_induction quoted? q mode cs generalizing r
  -- Each step of the reader takes a character, whatever its mode.
  all_goals grind [→ eq_some_of_push, → length_longEnd?]

/-- The rest after `shortText?` is shorter than what was read. -/
private theorem length_shortText? {cs : List Char} {r : List Char × List Char}
    (h : shortText? cs = some r) : r.2.length < cs.length := by
  unfold shortText? at h
  grind [→ length_quoted?]

/-- The rest after `text?` is shorter than what was read. -/
private theorem length_text? {cs : List Char} {r : List Char × List Char} (h : text? cs = some r) :
    r.2.length < cs.length := by
  unfold text? at h
  grind [→ length_quoted?, → length_shortText?, length_dropNewline]

/-! ## Lists -/

/-- The items of a list up to its closing bracket, each read by `text?`, and the rest after it. -/
def items? (cs : List Char) : Option (List String × List Char) :=
  match skipGaps false cs with
  | ']' :: rest => some ([], rest)
  | _ =>
    match _htext : text? (skipGaps false cs) with
    | none => none
    | some (text, next) =>
      match _hnext : skipGaps false next with
      | ',' :: rest => push (.ofList text) (items? rest)
      | ']' :: rest => some ([.ofList text], rest)
      | _ => none
termination_by cs.length
decreasing_by
  have := length_skipGaps false cs
  have := length_text? _htext
  have := _hnext ▸ length_skipGaps false next
  grind

/-- The rest after `items?` is shorter than what was read. -/
private theorem length_items? {cs : List Char} {r : List String × List Char}
    (h : items? cs = some r) : r.2.length < cs.length := by
  fun_induction items? cs generalizing r
  all_goals grind [→ eq_some_of_push, length_skipGaps, → length_text?]

/-! ## Entries -/

/-- The name of a setting: bare (`isBare`), or a text on one line. -/
def key? (cs : List Char) : Option (List Char × List Char) :=
  match cs.takeWhile isBare with
  | [] => shortText? cs
  | key => some (key, cs.dropWhile isBare)

/-- The value of a setting: a list, a truth value or a text. -/
def value? : List Char → Option (Value × List Char)
  | '[' :: rest => (items? rest).map fun (items, rest) => (.list items, rest)
  | 't' :: 'r' :: 'u' :: 'e' :: rest => some (.flag true, rest)
  | 'f' :: 'a' :: 'l' :: 's' :: 'e' :: rest => some (.flag false, rest)
  | cs => (text? cs).map fun (text, rest) => (.text (.ofList text), rest)

/-- The rest after an equals sign and the blanks around it. -/
def equals? (cs : List Char) : Option (List Char) :=
  match cs.dropWhile isBlank with
  | '=' :: rest => some (rest.dropWhile isBlank)
  | _ => none

/-- A setting, with the end of its line: `key?`, `equals?`, `value?` and `lineEnd?`. -/
def setting? (cs : List Char) : Option ((String × Value) × List Char) := do
  let (key, rest) ← key? (cs.dropWhile isBlank)
  let rest ← equals? rest
  let (value, rest) ← value? rest
  let rest ← lineEnd? rest
  some ((.ofList key, value), rest)

/-- `key?` adds nothing to the rest. -/
private theorem length_key? {cs : List Char} {r : List Char × List Char} (h : key? cs = some r) :
    r.2.length ≤ cs.length := by
  unfold key? at h
  grind [→ length_shortText?, length_dropWhile]

/-- The rest after `value?` is shorter than what was read. -/
private theorem length_value? {cs : List Char} {r : Value × List Char} (h : value? cs = some r) :
    r.2.length < cs.length := by
  unfold value? at h
  split at h
  · obtain ⟨_, hitems, rfl⟩ := Option.map_eq_some_iff.1 h
    exact Nat.lt_succ_of_lt (length_items? hitems)
  · grind
  · grind
  · obtain ⟨_, htext, rfl⟩ := Option.map_eq_some_iff.1 h
    exact length_text? htext

/-- `equals?` takes at least the equals sign. -/
private theorem length_equals? {cs rest : List Char} (h : equals? cs = some rest) :
    rest.length < cs.length := by
  unfold equals? at h
  grind [length_dropWhile]

/-- The rest after `setting?` is shorter than what was read. -/
private theorem length_setting? {cs : List Char} {r : (String × Value) × List Char}
    (h : setting? cs = some r) : r.2.length < cs.length := by
  simp only [setting?, Option.bind_eq_bind, Option.bind_eq_some_iff] at h
  obtain ⟨_, hkey, _, hequals, _, hvalue, _, hline, heq⟩ := h
  -- One bound for each of the readers, in the order in which they come.
  have := length_dropWhile isBlank cs
  have := length_key? hkey
  have := length_equals? hequals
  have := length_value? hvalue
  have := length_lineEnd? hline
  grind

/-- The entries of the lines of a document: a line is blank (`lineEnd?`) or has a `setting?`. -/
def entries? (cs : List Char) : Option (List (String × Value)) :=
  if _hend : cs = [] then some []
  else
    match _hline : lineEnd? cs with
    | some rest => entries? rest
    | none =>
      match _hsetting : setting? cs with
      | some (entry, rest) => (entries? rest).map (entry :: ·)
      | none => none
termination_by cs.length
decreasing_by
  · have := length_lineEnd? _hline
    have := List.length_pos_iff.2 _hend
    omega
  · exact length_setting? _hsetting

/-- The settings of `document`, which may start with a byte order mark.  No setting is given
    twice. -/
def settings? (document : String) : Option (List (String × Value)) := do
  let cs := document.toList
  let settings ← entries? (if cs.head? = some '\ufeff' then cs.tail else cs)
  if (settings.map (·.1)).Nodup then some settings else none

end Warrant.Toml
