import Warrant.Proofs.TypeReader

/-!
# Reading terms back from their text

`Term.read` reads a term from the tokens of its printed form.  It reads an operand where there is
one and looks at what stands after it: further operands are arguments, and an operator is followed
by further operands of the operation.  Where there is no operand a quantifier or a case split
starts.

The text of a case split goes on as long as there are arms, so a split inside an arm takes the arms
after it as its own (`Term.isOpen`).  A number annotated as an integer has the text of the integer
(`Term.annotated`).  A term that has neither of the two in it is plain.

* `Term.isIdentWord_of_isAlphanum`: identifiers of letters and digits are among those that can be
  read back.
* `Term.read_render`: a regular term that is plain is read back from its text.
-/

namespace Warrant

/-- The words that are no identifiers for `Term.read`. -/
def keywords : List String := ["case", "of", "True", "False"]

/-- Whether a word can be an identifier: it is not in `keywords` and does not start with a digit. -/
def isIdentWord (w : String) : Bool :=
  isWord w && w ∉ keywords && !(w.toList.head?.any Char.isDigit)

/-- A term whose parts all show in its text: identifiers and labels satisfy `isIdentWord`, text has
    no quotes in it, and there are as many arguments, operands, items, binders and arms as the
    constructor is meant for. -/
inductive Term.Regular : Term → Prop
  | app {head : Term} {args : List Term} (hhead : head.Regular) (hne : args ≠ [])
      (hargs : ∀ t ∈ args, t.Regular) :
    Regular (.app head args)
  | list {items : List Term} (hitems : ∀ t ∈ items, t.Regular) : Regular (.list items)
  | set {items : List Term} (hitems : ∀ t ∈ items, t.Regular) : Regular (.set items)
  | record {fields : List (Ident × Term)} (hlabels : ∀ f ∈ fields, isIdentWord f.1 = true)
    (hfields : ∀ f ∈ fields, f.2.Regular) : Regular (.record fields)
  | tuple {items : List Term} (hlen : 2 ≤ items.length) (hitems : ∀ t ∈ items, t.Regular) :
      Regular (.tuple items)
  | ident {name : Ident} (hname : isIdentWord name = true) : Regular (.ident name)
  | nary {op : Op} {args : List Term} (hlen : 2 ≤ args.length) (hargs : ∀ t ∈ args, t.Regular) :
      Regular (.nary op args)
  | quant {kind : Quant} {bound : List Ident} {types : Option (List Typ)} {body : Term}
      (hne : bound ≠ [])
    (hbound : ∀ x ∈ bound, isIdentWord x = true)
    (htypes : ∀ ts ∈ types, ts.length = bound.length ∧ ∀ t ∈ ts, t.Regular) (hbody : body.Regular) :
    Regular (.quant kind bound types body)
  | caseOf {scrutinee : Term} {arms : List (Term × Term)} (hscrutinee : scrutinee.Regular)
      (hne : arms ≠ [])
    (hpatterns : ∀ a ∈ arms, a.1.Regular) (hresults : ∀ a ∈ arms, a.2.Regular) :
    Regular (.caseOf scrutinee arms)
  | typed {term : Term} {typ : Typ} (hterm : term.Regular) (htyp : typ.Regular) :
      Regular (.typed term typ)
  | bool (b : Bool) : Regular (.lit (.bool b))
  | nat (n : Nat) : Regular (.lit (.nat n))
  | int (n : Int) : Regular (.lit (.int n))
  | str {s : String} (hs : '\'' ∉ s.toList) : Regular (.lit (.str s))

namespace Term

/-- Whether the text of a term ends in an arm of a `caseOf`, so that a further arm after it would be
    taken as one of that split. -/
def isOpen : Term → Bool
  | .quant _ _ _ body => body.isOpen
  | .caseOf .. => true
  | _ => false

/-- The annotation of a term in brackets, a `typed` term.  A number annotated as an integer is the
    integer. -/
def annotated : Term → Typ → Term
  | .lit (.nat n), .base .int => .int n
  | t, typ => .typed t typ

/-- `annotated` gives a `typed` term but for a number that is annotated as an integer. -/
theorem annotated_cases (t : Term) (typ : Typ) :
    annotated t typ = .typed t typ ∨ ∃ k, t = .lit (.nat k) ∧ typ = .base .int := by
  unfold annotated
  split
  · next k => exact .inr ⟨k, rfl, rfl⟩
  · exact .inl rfl

/-- A term whose text is read as the term itself, where it stands as it is (`bare`) or as an
    operand. -/
inductive Plain : Bool → Term → Prop
  | app {b : Bool} {head : Term} {args : List Term} (hhead : Plain false head)
      (hargs : ∀ t ∈ args, Plain false t) :
    Plain b (.app head args)
  | list {b : Bool} {items : List Term} (hitems : ∀ t ∈ items, Plain true t) : Plain b (.list items)
  | set {b : Bool} {items : List Term} (hitems : ∀ t ∈ items, Plain true t) : Plain b (.set items)
  | record {b : Bool} {fields : List (Ident × Term)} (hfields : ∀ f ∈ fields, Plain true f.2) :
      Plain b (.record fields)
  | tuple {b : Bool} {items : List Term} (hitems : ∀ t ∈ items, Plain true t) :
      Plain b (.tuple items)
  | ident {b : Bool} (name : Ident) : Plain b (.ident name)
  | nary {b : Bool} {op : Op} {args : List Term} (hargs : ∀ t ∈ args, Plain false t) :
      Plain b (.nary op args)
  | quant {b : Bool} {kind : Quant} {bound : List Ident} {types : Option (List Typ)} {body : Term}
    (hbody : Plain true body) : Plain b (.quant kind bound types body)
  | caseOf {b : Bool} {scrutinee : Term} {arms : List (Term × Term)}
      (hscrutinee : Plain true scrutinee)
    (hpatterns : ∀ a ∈ arms, Plain true a.1) (hresults : ∀ a ∈ arms, Plain true a.2)
    (hclosed : arms.Pairwise fun a _ => a.2.isOpen = false) : Plain b (.caseOf scrutinee arms)
  | typed {b : Bool} {term : Term} {typ : Typ} (hterm : Plain true term)
    (hbare : b = true → annotated term typ = .typed term typ) : Plain b (.typed term typ)
  | lit {b : Bool} (value : Literal) : Plain b (.lit value)

/-- What is `Plain` as an operand is so on its own, but for a number annotated as an integer. -/
private theorem Plain.bare_or {t : Term} (h : Plain false t) :
    Plain true t ∨ ∃ k, t = .typed (.lit (.nat k)) (.base .int) := by
  cases h with
  | app hhead hargs => exact .inl (.app hhead hargs)
  | list hitems => exact .inl (.list hitems)
  | set hitems => exact .inl (.set hitems)
  | record hfields => exact .inl (.record hfields)
  | tuple hitems => exact .inl (.tuple hitems)
  | ident name => exact .inl (.ident name)
  | nary hargs => exact .inl (.nary hargs)
  | quant hbody => exact .inl (.quant hbody)
  | caseOf hscrutinee hpatterns hresults hclosed =>
    exact .inl (.caseOf hscrutinee hpatterns hresults hclosed)
  | @typed _ t typ hterm _ =>
    -- Only here does it matter whether the term stands on its own.
    obtain hsame | ⟨k, rfl, rfl⟩ := annotated_cases t typ
    · exact .inl (.typed hterm fun _ => hsame)
    · exact .inr ⟨k, rfl⟩
  | lit value => exact .inl (.lit value)

/-! ## The reader -/

/-- The term that the word `w` stands for: a truth value, a number or an identifier. -/
def ofWord (w : String) : Option Term :=
  if w = "True" then some (.bool true)
  else if w = "False" then some (.bool false)
  else if w ∈ keywords then none
  else if w.toList.all Char.isDigit then some (.nat (Nat.ofDigitChars 10 w.toList 0))
  else some (.ident w)

/-- The operator whose `symbol` is the mark `m`. -/
def opOf? (m : String) : Option Op :=
  [Op.eq, .neq, .lt, .le, .gt, .ge, .and, .or, .implies, .metaImp, .add, .sub, .elem, .inter,
      .append, .compose].find?
    (·.symbol = m)

/-- The operator that is the first token, by `opOf?`. -/
def opAt? : List Token → Option Op
  | .mark m :: _ => opOf? m
  | _ => none

/-- The quantifier whose `symbol` is the mark `m`. -/
def quantOf? (m : String) : Option Quant := [Quant.all, .ex, .metaAll, .lambda].find? (·.symbol = m)

/-- Read items with commas between them, up to the mark `close`. -/
def readItems {α : Type} (item : Reader α) (n : Nat) (close : String) : Reader (List α) := fun ts =>
  match separated (.mark ",") item n ts with
  | some (items, ts) => (after (.mark close) ts).map (items, ·)
  | none => (after (.mark close) ts).map ([], ·)

/-- Read a `Token.word`. -/
def readWord : Reader String
  | .word w :: ts => some (w, ts)
  | _ => none

/-- Read the type that a term or an identifier in brackets is annotated with, and the closing
    bracket. -/
def readTypeOf (typ : Reader Typ) : Reader Typ := fun ts => do
  let ts ← after (.mark ":") ts
  let ts ← after (.mark ":") ts
  let (t, ts) ← typ ts
  let ts ← after (.mark ")") ts
  some (t, ts)

/-- Read a field of a `record`: its label, an equals sign and a term. -/
def readField (term : Reader Term) : Reader (Ident × Term) := fun ts => do
  let (label, ts) ← readWord ts
  let ts ← after (.mark "=") ts
  let (t, ts) ← term ts
  some ((label, t), ts)

/-- The term that a bracketed operand stands for.  An `int` has brackets of its own, so around it
    they make it an annotated number. -/
def grouped : Term → Term
  | .lit (.int (.ofNat n)) => .typed (.nat n) .int
  | t => t

/-- Brackets around a term that is not `isAtomic` change nothing, as it is no integer. -/
private theorem grouped_eq_self {t : Term} (h : t.isAtomic = false) : grouped t = t := by
  unfold grouped
  split
  · cases h
  · rfl

/-- Read what stands in round brackets: a `tuple`, an `annotated` term, an operand (`grouped`), or a
    negative integer. -/
def readBracketed (term : Reader Term) (typ : Reader Typ) (n : Nat) : Reader Term := fun ts =>
  match separated (.mark ",") term n ts with
  | some ([t], ts) =>
    match after (.mark ")") ts with
    | some ts => some (grouped t, ts)
    | none => do
      let (u, ts) ← readTypeOf typ ts
      some (annotated t u, ts)
  | some (items, ts) => (after (.mark ")") ts).map (.tuple items, ·)
  -- No term starts with a minus sign, so what is left is a negative integer.
  | none => do
    let ts ← after (.mark "-") ts
    let (w, ts) ← readWord ts
    let (_, ts) ← readTypeOf typ ts
    some (.int (-Nat.ofDigitChars 10 w.toList 0), ts)

/-- Read an operand: a word, a quoted text, or what stands in brackets of one of the four kinds. -/
def readOperand (term : Reader Term) (typ : Reader Typ) (n : Nat) : Reader Term
  | .word w :: ts => (ofWord w).map (·, ts)
  | .quoted s :: ts => some (.str s, ts)
  | .mark m :: ts =>
    if m = "(" then readBracketed term typ n ts
    else if m = "[" then (readItems term n "]" ts).map fun r => (.list r.1, r.2)
    else if m = "\x7b" then (readItems term n "\x7d" ts).map fun r => (.set r.1, r.2)
    else if m = "\\<lparr>" then (readItems (readField term) n "\\<rparr>" ts).map fun r =>
      (.record r.1, r.2)
    else none
  | [] => none

/-- What the operand `first` is the start of: an application (`app`), an operation (`nary`), or
    nothing more than the operand. -/
def readTail (operand : Reader Term) (n : Nat) (first : Term) (ts : List Token) :
    Term × List Token :=
  match many operand n ts with
  | (a :: args, ts) => (.app first (a :: args), ts)
  | ([], ts) =>
    match opAt? ts with
    | some op =>
      (.nary op (first :: (more (.mark op.symbol) operand n ts).1),
        (more (.mark op.symbol) operand n ts).2)
    | none => (first, ts)

/-- Read an identifier with its type, in brackets, as a `quant` binds it. -/
def readBinder (typ : Reader Typ) : Reader (Ident × Typ) := fun ts => do
  let ts ← after (.mark "(") ts
  let (x, ts) ← readWord ts
  let (t, ts) ← readTypeOf typ ts
  some ((x, t), ts)

/-- Read what a `quant` binds: identifiers without types, or each with its type (`readBinder`). -/
def readBinders (typ : Reader Typ) (n : Nat) (ts : List Token) :
    (List Ident × Option (List Typ)) × List Token :=
  match many readWord n ts with
  | (x :: bound, ts) => ((x :: bound, none), ts)
  | ([], ts) =>
    (((many (readBinder typ) n ts).1.map Prod.fst,
      some ((many (readBinder typ) n ts).1.map Prod.snd)),
      (many (readBinder typ) n ts).2)

/-- Read the binders and the body of a `quant` of the given `kind`. -/
def readQuant (term : Reader Term) (typ : Reader Typ) (n : Nat) (kind : Quant) :
    Reader Term := fun ts => do
  let ((bound, types), ts) := readBinders typ n ts
  let ts ← after (.mark ".") ts
  let (body, ts) ← term ts
  some (.quant kind bound types body, ts)

/-- Read an arm of a `caseOf`: a pattern, an arrow and a result. -/
def readArm (term : Reader Term) : Reader (Term × Term) := fun ts => do
  let (pattern, ts) ← term ts
  let ts ← after (.mark "\\<Rightarrow>") ts
  let (result, ts) ← term ts
  some ((pattern, result), ts)

/-- Read a `caseOf` after its first keyword. -/
def readCase (term : Reader Term) (n : Nat) : Reader Term := fun ts => do
  let (scrutinee, ts) ← term ts
  let ts ← after (.word "of") ts
  let (arms, ts) ← separated (.mark "|") (readArm term) n ts
  some (.caseOf scrutinee arms, ts)

/-- Read a term that starts with no operand: a `quant` or a `caseOf`. -/
def readOther (term : Reader Term) (typ : Reader Typ) (n : Nat) : Reader Term
  | .mark m :: ts => (quantOf? m).bind fun kind => readQuant term typ n kind ts
  | ts => (after (.word "case") ts).bind (readCase term n)

/-- Read a term that is nested at most as deep as the bound: `readOperand` and `readTail`, or
    `readOther`. -/
def read : Nat → Reader Term
  | 0, _ => none
  | n + 1, ts =>
    match readOperand (read n) (Typ.read n) n ts with
    | some (first, ts) => some (readTail (readOperand (read n) (Typ.read n) n) n first ts)
    -- The keyword of a split and the symbols of quantifiers start no operand.
    | none => readOther (read n) (Typ.read n) n ts

/-! ## Words and marks -/

/-- A letter is no digit. -/
private theorem isDigit_of_isAlpha {c : Char} (h : c.isAlpha = true) : c.isDigit = false := by
  refine Bool.eq_false_iff.2 fun hdigit => ?_
  -- Digits come before all letters.
  have hbelow : (List.range 58).all (fun k => !(Char.ofNat k).isAlpha) = true := by decide
  have hle : c.toNat < 58 := Nat.lt_succ_of_le (Char.isDigit_iff_toNat.1 hdigit).2
  have hc := List.all_eq_true.1 hbelow c.toNat (List.mem_range.2 hle)
  rw [Char.ofNat_toNat, h] at hc
  cases hc

/-- Letters and digits that start with a letter satisfy `isIdentWord`, unless they are one of the
    `keywords`. -/
theorem isIdentWord_of_isAlphanum {w : String} (hfirst : ∃ c ∈ w.toList.head?, c.isAlpha = true)
    (hall : ∀ c ∈ w.toList, c.isAlphanum = true) (hkeyword : w ∉ keywords) :
    isIdentWord w = true := by
  obtain ⟨c, hc, halpha⟩ := hfirst
  have hne : w.toList ≠ [] := fun h => by simp [h] at hc
  have hword : isWord w = true :=
    isWord_iff.2 ⟨hne, fun c hc => isWordChar_of_isAlphanum (hall c hc)⟩
  have hhead : w.toList.head? = some c := hc
  simp [isIdentWord, hword, hkeyword, hhead, isDigit_of_isAlpha halpha]

/-- An identifier is one token of `lex`. -/
private theorem isWord_of_isIdentWord {w : String} (h : isIdentWord w = true) :
    isWord w = true := by
  simp only [isIdentWord, Bool.and_eq_true] at h
  exact h.1.1

/-- `ofWord` takes an identifier as an `ident`. -/
private theorem ofWord_of_isIdentWord {w : String} (h : isIdentWord w = true) :
    ofWord w = some (.ident w) := by
  simp only [isIdentWord, Bool.and_eq_true, decide_eq_true_eq, Bool.not_eq_true'] at h
  obtain ⟨⟨hword, hkeyword⟩, hdigit⟩ := h
  obtain ⟨hne, -⟩ := isWord_iff.1 hword
  -- Its first character is no digit, so it is not read as a number.
  have hnumber : ¬w.toList.all Char.isDigit = true := by
    cases hlist : w.toList with
    | nil => exact absurd hlist hne
    | cons c cs =>
      rw [hlist] at hdigit
      have hc : c.isDigit = false := by simpa using hdigit
      simp [hc]
  have htrue : w ≠ "True" := fun h => hkeyword (h ▸ by decide)
  have hfalse : w ≠ "False" := fun h => hkeyword (h ▸ by decide)
  rw [ofWord, if_neg htrue, if_neg hfalse, if_neg hkeyword, if_neg hnumber]

/-- `ofWord` takes the digits of `n` as the number. -/
private theorem ofWord_toString (n : Nat) : ofWord (toString n) = some (.nat n) := by
  have hnumber : (toString n).toList.all Char.isDigit = true := by
    rw [toList_toString, List.all_eq_true]
    exact fun c hc => Nat.isDigit_of_mem_toDigits (by decide) (by decide) hc
  -- A number is no keyword, since keywords have letters in them.
  have hother : ∀ w ∈ keywords, toString n ≠ w := by
    rintro w hw rfl
    have hletter : keywords.all (fun w => !w.toList.all Char.isDigit) = true := by decide
    have hsome := List.all_eq_true.1 hletter _ hw
    rw [hnumber] at hsome
    cases hsome
  rw [ofWord, if_neg (hother _ (by decide)), if_neg (hother _ (by decide)),
    if_neg fun h => hother _ h rfl, if_pos hnumber, toList_toString, Nat.ofDigitChars_ten_toDigits]

/-- The `symbol` of every operator is one token. -/
private theorem isMark_opSymbol (op : Op) : isMark op.symbol = true := by cases op <;> decide

/-- `opOf?` finds every operator by its `symbol`. -/
private theorem opOf?_symbol (op : Op) : opOf? op.symbol = some op := by cases op <;> decide

/-- `opAt?` finds an operator whose `symbol` is the first token. -/
private theorem opAt?_op (op : Op) (ts : List Token) : opAt? (.mark op.symbol :: ts) = some op :=
  opOf?_symbol op

/-- The `symbol` of every quantifier is one token. -/
private theorem isMark_quantSymbol (kind : Quant) : isMark kind.symbol = true := by
  cases kind <;> decide

/-- `quantOf?` finds every quantifier by its `symbol`. -/
private theorem quantOf?_symbol (kind : Quant) : quantOf? kind.symbol = some kind := by
  cases kind <;> decide

private theorem delimits_colon : Delimits ":" (.mark ":") := delimits_mark (by decide)

/-- The two colons before a type are two tokens for `lex`. -/
private theorem lex_colons (rest : List Char) :
    lex ("::".toList ++ rest) = .mark ":" :: .mark ":" :: lex rest := by
  show lex (":".toList ++ (":".toList ++ rest)) = _
  rw [delimits_colon.lex_append, delimits_colon.lex_append]

/-- A term ends before the two colons of its type. -/
private theorem follows_colons {stops : List Token} (h : .mark ":" ∈ stops) (rest : List Char) :
    Follows stops ("::".toList ++ rest) :=
  delimits_colon.follows h (":".toList ++ rest)

private theorem delimits_equals : Delimits " = " (.mark "=") :=
  delimits_of_isMark (by decide) 1 1 (by decide)

private theorem delimits_dot : Delimits ". " (.mark ".") :=
  delimits_of_isMark (by decide) 0 1 (by decide)

private theorem delimits_bar : Delimits " | " (.mark "|") :=
  delimits_of_isMark (by decide) 1 1 (by decide)

private theorem delimits_op (op : Op) : Delimits (" " ++ op.symbol ++ " ") (.mark op.symbol) :=
  delimits_of_isMark (isMark_opSymbol op) 1 1 (by simp [String.toList_append])

/-- The keyword `of` with its blanks is one token of `lex`. -/
private theorem delimits_of : Delimits " of " (.word "of") where
  boundary rest := boundary_space _
  lex_append rest := by
    show lex (" ".toList ++ ("of".toList ++ (" ".toList ++ rest))) = _
    rw [lex_space_append, lex_word (by decide) (boundary_space rest), lex_space_append]

/-- The keyword `case` with its blank is one token of `lex`. -/
private theorem lex_case (rest : List Char) :
    lex ("case ".toList ++ rest) = .word "case" :: lex rest := by
  show lex ("case".toList ++ (" ".toList ++ rest)) = _
  rw [lex_word (by decide) (boundary_space rest), lex_space_append]

/-! ## What may stand after a term -/

/-- The tokens that end every term. -/
def closers : List Token :=
  [.mark ")", .mark "]", .mark "\x7d", .mark "\\<rparr>", .mark ",", .mark ":",
    .mark "\\<Rightarrow>", .word "of"]

/-- The tokens that end `t`: the mark before an arm too, unless the term would take the arm as its
    own (`isOpen`). -/
def stops (t : Term) : List Token := if t.isOpen then closers else .mark "|" :: closers

/-- What is among `closers` ends the term `t`. -/
private theorem closers_subset_stops (t : Term) : closers ⊆ t.stops := by
  unfold stops
  split
  · exact List.Subset.refl _
  · exact List.subset_cons_self ..

/-- A term ends at `closers` or the mark before an arm, and nowhere else. -/
private theorem stops_subset (t : Term) : t.stops ⊆ .mark "|" :: closers := by
  unfold stops
  split
  · exact List.subset_cons_self ..
  · exact List.Subset.refl _

/-- A term that is not `isOpen` ends before an arm. -/
private theorem stops_of_not_isOpen {t : Term} (h : t.isOpen = false) :
    t.stops = .mark "|" :: closers := by
  rw [stops, h, if_neg Bool.false_ne_true]

/-- No term ends before an operator. -/
private theorem mark_op_not_mem (op : Op) : Token.mark op.symbol ∉ Token.mark "|" :: closers := by
  cases op <;> decide

section
variable {term : Reader Term} {typ : Reader Typ} {n : Nat}

/-- What ends a term is neither an operand (`readOperand`) nor an operator (`opAt?`). -/
theorem readOperand_of_follows {rest : List Char} (h : Follows (.mark "|" :: closers) rest) :
    readOperand term typ n (lex rest) = none ∧ opAt? (lex rest) = none := by
  cases hlex : lex rest with
  | nil => exact ⟨rfl, rfl⟩
  | cons t ts =>
    have ht := h.first t (by rw [hlex]; rfl)
    simp only [closers, List.mem_cons, List.not_mem_nil, or_false] at ht
    -- One case for each of the `closers`, and one for the mark before an arm.
    rcases ht with rfl | rfl | rfl | rfl | rfl | rfl | rfl | rfl | rfl <;> exact ⟨rfl, rfl⟩

/-- No operand starts with an operator. -/
private theorem readOperand_op (op : Op) (ts : List Token) :
    readOperand term typ n (.mark op.symbol :: ts) = none := by
  cases op <;> rfl

/-- No operand starts with a quantifier. -/
private theorem readOperand_quant (kind : Quant) (ts : List Token) :
    readOperand term typ n (.mark kind.symbol :: ts) = none := by
  cases kind <;> rfl

/-- `read` finds no term at a mark other than those that open an operand and those of the
    quantifiers. -/
private theorem read_mark {m : String} (hopen : m ∉ ["(", "[", "\x7b", "\\<lparr>"])
    (hquant : quantOf? m = none) (n : Nat) (ts : List Token) : read n (.mark m :: ts) = none := by
  simp only [List.mem_cons, List.not_mem_nil, or_false, not_or] at hopen
  cases n with
  | zero => rfl
  | succ n => simp [read, readOperand, readOther, hopen, hquant]

/-- `readTail` takes nothing where something that ends a term stands: the operand is alone. -/
private theorem readTail_of_follows {rest : List Char} (h : Follows (.mark "|" :: closers) rest)
    (first : Term) : readTail (readOperand term typ n) n first (lex rest) = (first, lex rest) := by
  obtain ⟨hoperand, hop⟩ : readOperand term typ n (lex rest) = none ∧ opAt? (lex rest) = none :=
    readOperand_of_follows h
  simp only [readTail, many_eq_nil hoperand, hop]

end

/-! ## Reading back -/

/-- `renderFields` goes through the fields one by one. -/
theorem renderFields_eq_map (fields : List (Ident × Term)) :
    renderFields fields = fields.map fun f => f.1 ++ " = " ++ f.2.render := by
  induction fields with
  | nil => rfl
  | cons f fields ih => simp [renderFields, ih]

/-- `renderArms` goes through the arms one by one. -/
theorem renderArms_eq_map (arms : List (Term × Term)) :
    renderArms arms = arms.map fun a => a.1.render ++ " \\<Rightarrow> " ++ a.2.render := by
  induction arms with
  | nil => rfl
  | cons a arms ih => simp [renderArms, ih]

/-- The text of an `int` that is not negative is also that of a number `typed` as an integer. -/
theorem render_int_ofNat (k : Nat) :
    (Term.lit (.int (.ofNat k))).render = (Term.typed (.nat k) .int).render := by
  have hend : "::int)" = "::" ++ (Typ.int.render ++ ")") := by decide
  show "(" ++ toString k ++ "::int)" = "(" ++ toString k ++ "::" ++ Typ.int.render ++ ")"
  simp only [hend, String.append_assoc]

/-- `readItems` reads back items with commas between them, up to the mark that closes them. -/
private theorem readItems_eq {α : Type} {item : Reader α} {text : α → String} {as : List α}
    {n : Nat} (close : String) (hclose : isMark close = true) (hcomma : close ≠ ",")
    (hitem : ∀ a ∈ as, ∀ tail, Follows [.mark ",", .mark close] tail →
      item (lex ((text a).toList ++ tail)) = some (a, lex tail))
    (hnone : ∀ ts, item (.mark close :: ts) = none) (hlen : as.length ≤ n + 1) (rest : List Char) :
    readItems item n close
      (lex ((", ".intercalate (as.map text)).toList ++ (close.toList ++ rest))) =
      some (as, lex rest) := by
  have hdelimits := delimits_mark hclose
  by_cases hne : as = []
  · -- No items: the reader of items finds none at the closing mark.
    subst hne
    show readItems item n close (lex (close.toList ++ rest)) = _
    simp [hdelimits.lex_append, readItems, separated, hnone]
  · have hall := separated_eq_of_follows delimits_comma hne hitem
      (hdelimits.follows (List.mem_singleton.2 rfl) rest) (by simp [hcomma.symm]) hlen
    rw [readItems, hall, hdelimits.lex_append]
    simp

/-- Terms up to the size `n` are read back by `read n` where something that ends them stands after
    them. -/
def ReadsBack (n : Nat) : Prop :=
  ∀ t : Term, t.Regular → Plain true t → sizeOf t ≤ n → ∀ rest, Follows t.stops rest →
    read n (lex (t.render.toList ++ rest)) = some (t, lex rest)

section
variable {n : Nat} (ih : ReadsBack n)

/-- `readTypeOf` reads back the type of an annotation and its closing bracket. -/
private theorem readTypeOf_eq {typ : Typ} (htyp : typ.Regular) (hn : sizeOf typ ≤ n)
    (rest : List Char) :
    readTypeOf (Typ.read n) (lex ("::".toList ++ (typ.render.toList ++ (")".toList ++ rest)))) =
      some (typ, lex rest) := by
  have hread := Typ.read_render n typ htyp hn _
    (delimits_close.follows (by decide : _ ∈ Typ.stops) rest)
  rw [lex_colons]
  simp only [readTypeOf, after_self, Option.bind_eq_bind, Option.bind_some, hread]
  rw [delimits_close.lex_append]
  simp

/-- `readBinder` reads back an identifier with its type in brackets. -/
private theorem readBinder_eq {x : Ident} {t : Typ} (hx : isIdentWord x = true) (ht : t.Regular)
    (hn : sizeOf t ≤ n) (rest : List Char) :
    readBinder (Typ.read n) (lex (("(" ++ x ++ "::" ++ t.render ++ ")").toList ++ rest)) =
      some ((x, t), lex rest) := by
  have htypeOf := readTypeOf_eq ht hn rest
  simp only [String.toList_append, List.append_assoc]
  rw [delimits_open.lex_append,
    lex_word (isWord_of_isIdentWord hx) (follows_colons (List.mem_singleton.2 rfl) _).boundary]
  simp only [readBinder, after_self, readWord, htypeOf, Option.bind_eq_bind, Option.bind_some]

/-- `readBinders` reads back identifiers without types. -/
private theorem readBinders_words {bound : List Ident} (hne : bound ≠ [])
    (hbound : ∀ x ∈ bound, isIdentWord x = true) (hlen : bound.length ≤ n) (rest : List Char) :
    readBinders (Typ.read n) n
      (lex (behind " " (renderBinders bound none) ++ (". ".toList ++ rest))) =
      ((bound, none), lex (". ".toList ++ rest)) := by
  have hwords : many readWord n (lex (behind " " (bound.map id) ++ (". ".toList ++ rest))) =
      (bound, lex (". ".toList ++ rest)) := by
    refine many_eq (fun earlier x later heq => ?_) (by rw [delimits_dot.lex_append]; rfl) hlen
    rw [lex_space_append, id, lex_word (isWord_of_isIdentWord (hbound x (by simp [heq])))
      (boundary_behind boundary_space (delimits_dot.boundary rest) _)]
    rfl
  rw [List.map_id] at hwords
  rw [renderBinders, readBinders, hwords]
  cases bound with
  | nil => exact absurd rfl hne
  | cons x bound => rfl

/-- `readBinders` reads back identifiers with their types. -/
private theorem readBinders_typed {bound : List Ident} {types : List Typ} (hne : bound ≠ [])
    (hbound : ∀ x ∈ bound, isIdentWord x = true) (hcount : types.length = bound.length)
    (htypes : ∀ t ∈ types, t.Regular) (hlen : bound.length ≤ n) (hsize : ∀ t ∈ types, sizeOf t ≤ n)
    (rest : List Char) :
    readBinders (Typ.read n) n
      (lex (behind " " (renderBinders bound (some types)) ++ (". ".toList ++ rest))) =
      ((bound, some types), lex (". ".toList ++ rest)) := by
  -- There are as many types as identifiers, so the two lists are one list of pairs.
  have hzip : renderBinders bound (some types) =
      (bound.zip types).map fun b => "(" ++ b.1 ++ "::" ++ b.2.render ++ ")" := by
    rw [renderBinders, List.zip, List.map_zipWith]
  have hbinders : many (readBinder (Typ.read n)) n
      (lex (behind " " (renderBinders bound (some types)) ++ (". ".toList ++ rest))) =
      (bound.zip types, lex (". ".toList ++ rest)) := by
    rw [hzip]
    refine many_eq (fun earlier b later heq => ?_) (by rw [delimits_dot.lex_append]; rfl) ?_
    · have hmem : b ∈ bound.zip types := by simp [heq]
      obtain ⟨hx, ht⟩ := List.of_mem_zip (a := b.1) (b := b.2) hmem
      rw [lex_space_append]
      exact readBinder_eq (hbound _ hx) (htypes _ ht) (hsize _ ht) _
    · rw [List.length_zip]
      omega
  -- The first binder starts with a bracket, so there are no words.
  have hnone : readWord (lex (behind " " (renderBinders bound (some types)) ++
      (". ".toList ++ rest))) = none := by
    match bound, types, hne, hcount with
    | x :: bound, t :: types, _, _ =>
      rw [renderBinders, List.zipWith_cons_cons, behind_cons, List.append_assoc, lex_space_append]
      simp only [String.toList_append, List.append_assoc]
      rw [delimits_open.lex_append]
      rfl
  rw [readBinders, many_eq_nil hnone]
  simp only [hbinders, List.map_fst_zip (Nat.le_of_eq hcount.symm),
    List.map_snd_zip (Nat.le_of_eq hcount)]

/-- `readBinders` reads back what a regular `quant` binds. -/
private theorem readBinders_eq {bound : List Ident} {types : Option (List Typ)} (hne : bound ≠ [])
    (hbound : ∀ x ∈ bound, isIdentWord x = true)
    (htypes : ∀ ts ∈ types, ts.length = bound.length ∧ ∀ t ∈ ts, t.Regular)
    (hlen : bound.length ≤ n) (hsize : ∀ ts ∈ types, ∀ t ∈ ts, sizeOf t ≤ n) (rest : List Char) :
    readBinders (Typ.read n) n
      (lex ((" ".intercalate (renderBinders bound types)).toList ++ (". ".toList ++ rest))) =
      ((bound, types), .mark "." :: lex rest) := by
  rw [lex_intercalate_space, ← delimits_dot.lex_append]
  cases types with
  | none => exact readBinders_words hne hbound hlen rest
  | some ts =>
    exact readBinders_typed hne hbound (htypes ts rfl).1 (htypes ts rfl).2 hlen (hsize ts rfl) rest

/-- `read` a term whose text is that of an operand. -/
private theorem read_of_readOperand {t : Term} {text rest : List Char}
    (hrest : Follows (.mark "|" :: closers) rest)
    (h : readOperand (read n) (Typ.read n) n (lex (text ++ rest)) = some (t, lex rest)) :
    read (n + 1) (lex (text ++ rest)) = some (t, lex rest) := by
  rw [read, h]
  simp only [readTail_of_follows hrest]

include ih

/-- The start of a term in brackets: `separated` reads the one term, up to what follows it there. -/
private theorem separated_term {t : Term} (ht : t.Regular) (hplain : Plain true t)
    (hn : sizeOf t ≤ n) {rest : List Char} (hrest : Follows (closers.erase (.mark ",")) rest) :
    separated (.mark ",") (read n) n (lex (t.render.toList ++ rest)) = some ([t], lex rest) := by
  have hstops : closers.erase (.mark ",") ⊆ t.stops :=
    fun u hu => closers_subset_stops t (List.mem_of_mem_erase hu)
  have hmore : more (.mark ",") (read n) n (lex rest) = ([], lex rest) :=
    many_eq_nil (by rw [hrest.after_eq_none (by decide), Option.bind_none]) n
  simp only [separated, ih t ht hplain hn rest (hrest.mono hstops), hmore]

/-- `readOperand` of a term in brackets is the term, `grouped`. -/
private theorem readOperand_grouped {t : Term} (ht : t.Regular) (hplain : Plain true t)
    (hn : sizeOf t ≤ n) (rest : List Char) :
    readOperand (read n) (Typ.read n) n (lex (("(" ++ t.render ++ ")").toList ++ rest)) =
      some (grouped t, lex rest) := by
  have hitem := separated_term ih ht hplain hn (delimits_close.follows (by decide) rest)
  simp only [String.toList_append, List.append_assoc]
  rw [delimits_open.lex_append, readOperand, if_pos rfl, readBracketed, hitem,
    delimits_close.lex_append]
  simp

/-- `readOperand` of a term in brackets with its type is the term, `annotated`. -/
private theorem readOperand_annotated {t : Term} {typ : Typ} (ht : t.Regular)
    (hplain : Plain true t) (htyp : typ.Regular) (hn : sizeOf t ≤ n) (hn' : sizeOf typ ≤ n)
    (rest : List Char) :
    readOperand (read n) (Typ.read n) n
      (lex (("(" ++ t.render ++ "::" ++ typ.render ++ ")").toList ++ rest)) =
      some (annotated t typ, lex rest) := by
  have hitem := separated_term ih ht hplain hn
    (follows_colons (by decide) (typ.render.toList ++ (")".toList ++ rest)))
  have htypeOf := readTypeOf_eq htyp hn' rest
  -- What follows the term is a colon, so it is no operand in brackets.
  have hclose : after (.mark ")")
      (lex ("::".toList ++ (typ.render.toList ++ (")".toList ++ rest)))) = none :=
    (follows_colons (List.mem_singleton.2 rfl) _).after_eq_none (by decide)
  simp only [String.toList_append, List.append_assoc]
  rw [delimits_open.lex_append, readOperand, if_pos rfl, readBracketed, hitem]
  simp only [hclose, htypeOf, Option.bind_eq_bind, Option.bind_some]

/-- Each of several terms is read back where one of `closers` follows. -/
private theorem item_render {items : List Term} (hitems : ∀ t ∈ items, t.Regular)
    (hplain : ∀ t ∈ items, Plain true t) (hn : sizeOf items ≤ n) {marks : List Token}
    (hmarks : marks ⊆ closers) :
    ∀ t ∈ items, ∀ tail, Follows marks tail →
      read n (lex (t.render.toList ++ tail)) = some (t, lex tail) :=
  fun t ht tail htail => ih t (hitems t ht) (hplain t ht) (sizeOf_le_of_mem ht hn) tail
    (htail.mono (List.Subset.trans hmarks (closers_subset_stops t)))

/-- `readItems` reads back the items of a `list` or a `set`. -/
private theorem readItems_renders {items : List Term} (hitems : ∀ t ∈ items, t.Regular)
    (hplain : ∀ t ∈ items, Plain true t) (hn : sizeOf items ≤ n) {close : String}
    (hclose : close ∈ ["]", "\x7d"]) (rest : List Char) :
    readItems (read n) n close
      (lex ((", ".intercalate (renders items)).toList ++ (close.toList ++ rest))) =
      some (items, lex rest) := by
  have hmark : ∀ m ∈ ["]", "\x7d"], isMark m = true ∧ m ≠ "," ∧
      [Token.mark ",", .mark m] ⊆ closers ∧ m ∉ ["(", "[", "\x7b", "\\<lparr>"] ∧
      quantOf? m = none := by decide
  obtain ⟨hm, hcomma, hsubset, hopen, hquant⟩ := hmark close hclose
  rw [renders_eq_map]
  exact readItems_eq close hm hcomma (item_render ih hitems hplain hn hsubset)
    (read_mark hopen hquant n) (Nat.le_succ_of_le (length_le_of_sizeOf_le hn)) rest

/-- `readField` reads back a field of a `record`. -/
private theorem readField_eq {label : Ident} {t : Term} (hlabel : isIdentWord label = true)
    (ht : t.Regular) (hplain : Plain true t) (hn : sizeOf t ≤ n) {tail : List Char}
    (htail : Follows closers tail) :
    readField (read n) (lex ((label ++ " = " ++ t.render).toList ++ tail)) =
      some ((label, t), lex tail) := by
  have hread := ih t ht hplain hn tail (htail.mono (closers_subset_stops t))
  simp only [String.toList_append, List.append_assoc]
  rw [lex_word (isWord_of_isIdentWord hlabel) (delimits_equals.boundary _),
    delimits_equals.lex_append]
  simp [readField, readWord, hread]

/-- `readItems` reads back the fields of a `record`. -/
private theorem readItems_fields {fields : List (Ident × Term)}
    (hlabels : ∀ f ∈ fields, isIdentWord f.1 = true) (hterms : ∀ f ∈ fields, f.2.Regular)
    (hplain : ∀ f ∈ fields, Plain true f.2) (hn : sizeOf fields ≤ n) (rest : List Char) :
    readItems (readField (read n)) n "\\<rparr>"
      (lex ((", ".intercalate (renderFields fields)).toList ++ ("\\<rparr>".toList ++ rest))) =
        some (fields, lex rest) := by
  rw [renderFields_eq_map]
  refine readItems_eq "\\<rparr>" (by decide) (by decide) (fun f hf tail htail => ?_) (fun _ => rfl)
    (Nat.le_succ_of_le (length_le_of_sizeOf_le hn)) rest
  have hsize : sizeOf f ≤ n := sizeOf_le_of_mem hf hn
  obtain ⟨label, t⟩ := f
  simp only [Prod.mk.sizeOf_spec] at hsize
  have hsize' : sizeOf t ≤ n := by omega
  exact readField_eq ih (hlabels _ hf) (hterms _ hf) (hplain _ hf) hsize' (htail.mono (by decide))

/-- `readOperand` reads back a `tuple`. -/
private theorem readOperand_tuple {items : List Term} (hlen : 2 ≤ items.length)
    (hitems : ∀ t ∈ items, t.Regular) (hplain : ∀ t ∈ items, Plain true t) (hn : sizeOf items ≤ n)
    (rest : List Char) :
    readOperand (read n) (Typ.read n) n (lex ((Term.tuple items).render.toList ++ rest)) =
      some (.tuple items, lex rest) := by
  have hread := separated_eq_of_follows delimits_comma (List.ne_nil_of_length_pos (by omega))
    (item_render ih hitems hplain hn (by decide))
    (delimits_close.follows (List.mem_singleton.2 rfl) rest) (by decide)
    (Nat.le_succ_of_le (length_le_of_sizeOf_le hn))
  simp only [render, renders_eq_map, String.toList_append, List.append_assoc]
  rw [delimits_open.lex_append, readOperand, if_pos rfl, readBracketed, hread,
    delimits_close.lex_append]
  -- With two items or more the brackets are read as those of a tuple.
  match items, hlen with
  | t :: u :: items, _ => simp

/-- `readOperand` reads back an `int`: a number annotated as one, with a sign before it or
    without. -/
private theorem readOperand_int (k : Int) (hn : sizeOf (Term.lit (.int k)) ≤ n + 1)
    (rest : List Char) :
    readOperand (read n) (Typ.read n) n (lex ((Term.lit (.int k)).render.toList ++ rest)) =
      some (.lit (.int k), lex rest) := by
  cases k with
  | ofNat k =>
    -- The text is that of a number annotated as an integer.
    simp only [lit.sizeOf_spec, Literal.int.sizeOf_spec, Int.ofNat.sizeOf_spec] at hn
    rw [render_int_ofNat]
    exact readOperand_annotated ih (.nat k) (.lit (.nat k)) (.base .int)
      (by simp only [lit.sizeOf_spec, Literal.nat.sizeOf_spec]; omega)
      (by simp only [Typ.base.sizeOf_spec, BaseTyp.int.sizeOf_spec]; omega) rest
  | negSucc k =>
    simp only [lit.sizeOf_spec, Literal.int.sizeOf_spec, Int.negSucc.sizeOf_spec] at hn
    have htypeOf := readTypeOf_eq (.base .int) (n := n)
      (by simp only [Typ.base.sizeOf_spec, BaseTyp.int.sizeOf_spec]; omega) rest
    have hminus : Delimits "-" (.mark "-") := delimits_mark (by decide)
    -- No term starts with the sign, so the reader of brackets comes to its last case.
    have hnone : ∀ ts, separated (.mark ",") (read n) n (.mark "-" :: ts) = none := fun ts => by
      rw [separated, read_mark (by decide) (by decide)]
    have htext : (Term.lit (.int (.negSucc k))).render.toList ++ rest = "(".toList ++ ("-".toList ++
        ((toString (k + 1)).toList ++ ("::".toList ++
          ((Typ.base .int).render.toList ++ (")".toList ++ rest))))) := by
      have hends : "(-".toList = "(".toList ++ "-".toList ∧
          "::int)".toList = "::".toList ++
            ((Typ.base .int).render.toList ++ ")".toList) := by decide
      rw [render, Literal.render, String.toList_append, String.toList_append, hends.1, hends.2]
      simp only [List.append_assoc]
    rw [htext, delimits_open.lex_append, hminus.lex_append,
      lex_word (isWord_toString _) (follows_colons (List.mem_singleton.2 rfl) _).boundary,
      readOperand, if_pos rfl, readBracketed, hnone]
    simp only [after_self, readWord, htypeOf, Option.bind_eq_bind, Option.bind_some]
    rw [toList_toString, Nat.ofDigitChars_ten_toDigits]
    rfl

/-- `readOperand` reads back an operand in brackets. -/
private theorem readOperand_of_not_isAtomic {t : Term} (ht : t.Regular) (hplain : Plain false t)
    (hatomic : t.isAtomic = false) (hn : sizeOf t ≤ n) (rest : List Char) :
    readOperand (read n) (Typ.read n) n (lex (("(" ++ t.render ++ ")").toList ++ rest)) =
      some (t, lex rest) := by
  obtain hbare | ⟨k, rfl⟩ := hplain.bare_or
  · rw [readOperand_grouped ih ht hbare hn, grouped_eq_self hatomic]
  · -- The text in the brackets is that of the integer, and the brackets around it tell the two
    -- apart.
    have hsize : sizeOf (Term.lit (.int (.ofNat k))) ≤ n := by
      simp only [typed.sizeOf_spec, lit.sizeOf_spec, Literal.nat.sizeOf_spec,
        Typ.base.sizeOf_spec] at hn
      simp only [lit.sizeOf_spec, Literal.int.sizeOf_spec, Int.ofNat.sizeOf_spec]
      omega
    have hread := readOperand_grouped ih (.int (.ofNat k)) (.lit _) hsize rest
    rw [render_int_ofNat] at hread
    exact hread

/-- `readOperand` reads back an operand that stands without brackets. -/
private theorem readOperand_of_isAtomic {t : Term} {bare : Bool} (ht : t.Regular)
    (hplain : Plain bare t) (hatomic : t.isAtomic = true) (hn : sizeOf t ≤ n + 1) {rest : List Char}
    (hrest : Boundary rest) :
    readOperand (read n) (Typ.read n) n (lex (t.render.toList ++ rest)) = some (t, lex rest) := by
  cases ht with
  | list hitems =>
    cases hplain with
    | list hitems' =>
      simp only [list.sizeOf_spec] at hn
      have hopen : Delimits "[" (.mark "[") := delimits_mark (by decide)
      have hread := readItems_renders ih hitems hitems' (by omega) (by decide : "]" ∈ _) rest
      simp only [render, String.toList_append, List.append_assoc]
      rw [hopen.lex_append, readOperand, if_neg (by decide), if_pos rfl, hread, Option.map_some]
  | set hitems =>
    cases hplain with
    | set hitems' =>
      simp only [set.sizeOf_spec] at hn
      have hopen : Delimits "\x7b" (.mark "\x7b") := delimits_mark (by decide)
      have hread := readItems_renders ih hitems hitems' (by omega) (by decide : "\x7d" ∈ _) rest
      simp only [render, String.toList_append, List.append_assoc]
      rw [hopen.lex_append, readOperand, if_neg (by decide), if_neg (by decide), if_pos rfl, hread,
        Option.map_some]
  | record hlabels hfields =>
    cases hplain with
    | record hfields' =>
      simp only [record.sizeOf_spec] at hn
      have hopen : Delimits "\\<lparr>" (.mark "\\<lparr>") := delimits_mark (by decide)
      have hread := readItems_fields ih hlabels hfields hfields' (by omega) rest
      simp only [render, String.toList_append, List.append_assoc]
      rw [hopen.lex_append, readOperand, if_neg (by decide), if_neg (by decide), if_neg (by decide),
        if_pos rfl, hread, Option.map_some]
  | tuple hlen hitems =>
    cases hplain with
    | tuple hitems' =>
      simp only [tuple.sizeOf_spec] at hn
      exact readOperand_tuple ih hlen hitems hitems' (by omega) rest
  | @ident name hname =>
    show readOperand (read n) (Typ.read n) n (lex (name.toList ++ rest)) = _
    rw [lex_word (isWord_of_isIdentWord hname) hrest, readOperand, ofWord_of_isIdentWord hname,
      Option.map_some]
  | bool b =>
    have hword : isWord (Literal.bool b).render = true := by cases b <;> decide
    have hvalue : ofWord (Literal.bool b).render = some (.lit (.bool b)) := by cases b <;> decide
    rw [render, lex_word hword hrest, readOperand, hvalue, Option.map_some]
  | nat k =>
    show readOperand (read n) (Typ.read n) n (lex ((toString k).toList ++ rest)) = _
    rw [lex_word (isWord_toString k) hrest, readOperand, ofWord_toString, Option.map_some]
    rfl
  | int k => exact readOperand_int ih k hn rest
  | @str s hs =>
    show readOperand (read n) (Typ.read n) n (lex (("''" ++ s ++ "''").toList ++ rest)) = _
    rw [lex_quoted hs, readOperand]
    rfl
  | _ =>
    -- The other terms stand in brackets.
    cases hatomic

/-- `readOperand` reads back an operand, whatever follows that is not part of a word. -/
theorem readOperand_operand {t : Term} (ht : t.Regular) (hplain : Plain false t) (hn : sizeOf t ≤ n)
    {rest : List Char} (hrest : Boundary rest) :
    readOperand (read n) (Typ.read n) n (lex ((asOperand t.isAtomic t.render).toList ++ rest)) =
      some (t, lex rest) := by
  cases hatomic : t.isAtomic with
  | true => exact readOperand_of_isAtomic ih ht hplain hatomic (Nat.le_succ_of_le hn) hrest
  | false => exact readOperand_of_not_isAtomic ih ht hplain hatomic hn rest

/-- `read` reads back a term that is `isAtomic`. -/
private theorem read_atomic {t : Term} (ht : t.Regular) (hplain : Plain true t)
    (hatomic : t.isAtomic = true) (hn : sizeOf t ≤ n + 1) {rest : List Char}
    (hrest : Follows t.stops rest) :
    read (n + 1) (lex (t.render.toList ++ rest)) = some (t, lex rest) :=
  read_of_readOperand (hrest.mono (stops_subset t))
    (readOperand_of_isAtomic ih ht hplain hatomic hn hrest.boundary)

/-- `read` reads back an `app`: the head, and then operands as long as there are any. -/
private theorem read_app {head : Term} {args : List Term} (hhead : head.Regular) (hne : args ≠ [])
    (hargs : ∀ t ∈ args, t.Regular) (hhead' : Plain false head) (hargs' : ∀ t ∈ args, Plain false t)
    (hn : sizeOf (Term.app head args) ≤ n + 1) {rest : List Char}
    (hrest : Follows (.mark "|" :: closers) rest) :
    read (n + 1) (lex ((Term.app head args).render.toList ++ rest)) =
      some (.app head args, lex rest) := by
  simp only [app.sizeOf_spec] at hn
  have hboundary := boundary_behind boundary_space hrest.boundary
  -- The head is followed by a blank, and so is every argument but the last.
  have hfirst := readOperand_operand ih hhead hhead' (by omega) (hboundary (operands args))
  -- The arguments are read until what follows starts no operand.
  have hmany : many (readOperand (read n) (Typ.read n) n) n
      (lex (behind " " (operands args) ++ rest)) = (args, lex rest) := by
    rw [operands_eq_map]
    refine many_eq (fun earlier a later heq => ?_) (readOperand_of_follows hrest).1
      (length_le_of_sizeOf_le (by omega))
    rw [lex_space_append]
    have ha : a ∈ args := by simp [heq]
    exact readOperand_operand ih (hargs a ha) (hargs' a ha) (sizeOf_le_of_mem ha (by omega))
      (hboundary _)
  rw [render, toList_intercalate_cons, List.append_assoc, read, hfirst]
  simp only [readTail, hmany]
  cases args with
  | nil => exact absurd rfl hne
  | cons a args => rfl

/-- `read` reads back a `nary`: the first operand, and then the operator before each further one. -/
private theorem read_nary {op : Op} {args : List Term} (hlen : 2 ≤ args.length)
    (hargs : ∀ t ∈ args, t.Regular) (hargs' : ∀ t ∈ args, Plain false t)
    (hn : sizeOf (Term.nary op args) ≤ n + 1) {rest : List Char}
    (hrest : Follows (.mark "|" :: closers) rest) :
    read (n + 1) (lex ((Term.nary op args).render.toList ++ rest)) =
      some (.nary op args, lex rest) := by
  match args, hlen with
  | first :: second :: args, _ =>
    simp only [nary.sizeOf_spec] at hn
    have hsep := delimits_op op
    have hboundary := boundary_behind hsep.boundary hrest.boundary
    have hoperand : ∀ a ∈ first :: second :: args, ∀ tail, Boundary tail →
        readOperand (read n) (Typ.read n) n
          (lex ((asOperand a.isAtomic a.render).toList ++ tail)) = some (a, lex tail) :=
      fun a ha tail htail =>
        readOperand_operand ih (hargs a ha) (hargs' a ha) (sizeOf_le_of_mem ha (by omega)) htail
    have hlen : (first :: second :: args).length ≤ n := length_le_of_sizeOf_le (by omega)
    have hfirst := hoperand first List.mem_cons_self _ (hboundary (operands (second :: args)))
    have hmore : more (.mark op.symbol) (readOperand (read n) (Typ.read n) n) n
        (lex (behind (" " ++ op.symbol ++ " ") (operands (second :: args)) ++ rest)) =
          (second :: args, lex rest) := by
      rw [operands_eq_map]
      exact more_eq hsep (fun earlier a later heq => hoperand a (by rw [heq]; simp) _ (hboundary _))
        (fun h => mark_op_not_mem op (hrest.first _ h)) (Nat.le_of_succ_le hlen)
    -- What follows the first operand is the operator, so there are no arguments.
    obtain ⟨ts, hlex⟩ : ∃ ts,
        lex (behind (" " ++ op.symbol ++ " ") (operands (second :: args)) ++ rest) =
          .mark op.symbol :: ts := by
      rw [operands, behind_cons, List.append_assoc, hsep.lex_append]
      exact ⟨_, rfl⟩
    rw [render, operands, toList_intercalate_cons, List.append_assoc, read, hfirst]
    rw [hlex] at hmore ⊢
    simp only [readTail, many_eq_nil (readOperand_op op ts), opAt?_op, hmore]

/-- `read` reads back a `quant`. -/
private theorem read_quant {kind : Quant} {bound : List Ident} {types : Option (List Typ)}
    {body : Term} (hne : bound ≠ []) (hbound : ∀ x ∈ bound, isIdentWord x = true)
    (htypes : ∀ ts ∈ types, ts.length = bound.length ∧ ∀ t ∈ ts, t.Regular) (hbody : body.Regular)
    (hplain : Plain true body) (hn : sizeOf (Term.quant kind bound types body) ≤ n + 1)
    {rest : List Char} (hrest : Follows body.stops rest) :
    read (n + 1) (lex ((Term.quant kind bound types body).render.toList ++ rest)) =
      some (.quant kind bound types body, lex rest) := by
  simp only [quant.sizeOf_spec] at hn
  have hlen : bound.length ≤ n := length_le_of_sizeOf_le (by omega)
  have hsize : ∀ ts ∈ types, ∀ t ∈ ts, sizeOf t ≤ n := by
    rintro ts rfl t ht
    simp only [Option.some.sizeOf_spec] at hn
    exact sizeOf_le_of_mem ht (by omega)
  have hbinders := readBinders_eq hne hbound htypes hlen hsize (body.render.toList ++ rest)
  have hread := ih body hbody hplain (by omega) rest hrest
  simp only [render, String.toList_append, List.append_assoc]
  -- The symbol of the quantifier starts no operand, so it is one of the other terms.
  rw [(delimits_mark (isMark_quantSymbol kind)).lex_append, read, readOperand_quant, readOther,
    quantOf?_symbol]
  simp only [Option.bind_some, readQuant, hbinders, after_self, Option.bind_eq_bind, hread]

/-- `readArm` reads back an arm, where its result ends before what stands after it. -/
private theorem readArm_eq {a : Term × Term} (hpattern : a.1.Regular) (hresult : a.2.Regular)
    (hpattern' : Plain true a.1) (hresult' : Plain true a.2) (hn : sizeOf a ≤ n) {rest : List Char}
    (hrest : Follows a.2.stops rest) :
    readArm (read n) (lex ((a.1.render ++ " \\<Rightarrow> " ++ a.2.render).toList ++ rest)) =
      some (a, lex rest) := by
  obtain ⟨pattern, result⟩ := a
  simp only [Prod.mk.sizeOf_spec] at hn
  have hstop : Token.mark "\\<Rightarrow>" ∈ pattern.stops :=
    closers_subset_stops pattern (by decide)
  have hfirst := ih pattern hpattern hpattern' (by omega) _
    (delimits_arrow.follows hstop (result.render.toList ++ rest))
  have hsecond := ih result hresult hresult' (by omega) rest hrest
  simp only [String.toList_append, List.append_assoc, readArm, hfirst, Option.bind_eq_bind,
    Option.bind_some]
  rw [delimits_arrow.lex_append]
  simp [hsecond]

/-- `read` reads back a `caseOf` whose arms are not open, but perhaps the last. -/
private theorem read_caseOf {scrutinee : Term} {arms : List (Term × Term)}
    (hscrutinee : scrutinee.Regular) (hne : arms ≠ []) (hpatterns : ∀ a ∈ arms, a.1.Regular)
    (hresults : ∀ a ∈ arms, a.2.Regular) (hscrutinee' : Plain true scrutinee)
    (hpatterns' : ∀ a ∈ arms, Plain true a.1) (hresults' : ∀ a ∈ arms, Plain true a.2)
    (hclosed : arms.Pairwise fun a _ => a.2.isOpen = false)
    (hn : sizeOf (Term.caseOf scrutinee arms) ≤ n + 1) {rest : List Char}
    (hrest : Follows closers rest) :
    read (n + 1) (lex ((Term.caseOf scrutinee arms).render.toList ++ rest)) =
      some (.caseOf scrutinee arms, lex rest) := by
  simp only [caseOf.sizeOf_spec] at hn
  have hstop : Token.word "of" ∈ scrutinee.stops := closers_subset_stops scrutinee (by decide)
  have hfirst := ih scrutinee hscrutinee hscrutinee' (by omega) _
    (delimits_of.follows hstop ((" | ".intercalate (renderArms arms)).toList ++ rest))
  have harms : separated (.mark "|") (readArm (read n)) n
      (lex ((" | ".intercalate (renderArms arms)).toList ++ rest)) = some (arms, lex rest) := by
    rw [renderArms_eq_map]
    refine separated_eq delimits_bar hne (fun earlier a later heq => ?_) (fun h => ?_) ?_
    · have ha : a ∈ arms := by simp [heq]
      refine readArm_eq ih (hpatterns a ha) (hresults a ha) (hpatterns' a ha) (hresults' a ha)
        (sizeOf_le_of_mem ha (by omega)) ?_
      -- Only the last arm may be open, and after it there is no further arm of this split.
      cases later with
      | nil => exact hrest.mono (closers_subset_stops a.2)
      | cons b later =>
        rw [heq, List.pairwise_append, List.pairwise_cons] at hclosed
        rw [stops_of_not_isOpen (hclosed.2.1.1 b List.mem_cons_self), List.map_cons, behind_cons,
          List.append_assoc]
        exact delimits_bar.follows List.mem_cons_self _
    · exact absurd (hrest.first _ h) (by decide)
    · exact Nat.le_succ_of_le (length_le_of_sizeOf_le (by omega))
  simp only [render, String.toList_append, List.append_assoc]
  rw [lex_case, read]
  have hnone : readOperand (read n) (Typ.read n) n (.word "case" :: lex (scrutinee.render.toList ++
    (" of ".toList ++ ((" | ".intercalate (renderArms arms)).toList ++ rest)))) = none := rfl
  simp only [hnone, readOther, after_self, Option.bind_some, readCase, hfirst, Option.bind_eq_bind]
  rw [delimits_of.lex_append]
  simp only [after_self, Option.bind_some, harms]

end

/-- A regular term that is `Plain` is read back from its text by `read`. -/
theorem read_render (n : Nat) : ReadsBack n := by
  induction n with
  | zero =>
    intro t ht hplain hn
    cases t <;> simp at hn
  | succ n ih =>
    -- By the bound on the size: every part of a term is smaller than the term.
    intro t ht hplain hn rest hrest
    cases hatomic : t.isAtomic with
    | true => exact read_atomic ih ht hplain hatomic hn hrest
    | false =>
      cases hplain with
      | app hhead' hargs' =>
        cases ht with
        | app hhead hne hargs => exact read_app ih hhead hne hargs hhead' hargs' hn hrest
      | nary hargs' =>
        cases ht with
        | nary hlen hargs => exact read_nary ih hlen hargs hargs' hn hrest
      | quant hbody' =>
        cases ht with
        | quant hne hbound htypes hbody =>
          exact read_quant ih hne hbound htypes hbody hbody' hn hrest
      | caseOf hscrutinee' hpatterns' hresults' hclosed =>
        cases ht with
        | caseOf hscrutinee hne hpatterns hresults =>
          exact read_caseOf ih hscrutinee hne hpatterns hresults hscrutinee' hpatterns' hresults'
            hclosed hn hrest
      | typed hterm' hbare =>
        cases ht with
        | typed hterm htyp =>
          simp only [typed.sizeOf_spec] at hn
          have hoperand := readOperand_annotated ih hterm hterm' htyp (by omega) (by omega) rest
          rw [hbare rfl] at hoperand
          exact read_of_readOperand hrest hoperand
      | _ => cases hatomic

end Term

end Warrant
