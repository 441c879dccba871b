import Warrant.Proofs.Tokens

/-!
# Reading types back from their text

`Typ.read` reads a type from the tokens of its printed form.  A name after a type takes that type as
its argument, so an operand is read together with the names after it (`Typ.applied`).  Brackets are
either those of an operand or those of the arguments of a constructor; which of the two is known
when the bracket is closed.

* `Typ.read_render`: a regular type is read back from its text.
* `Typ.render_inj`: so different regular types have different texts.
-/

namespace Warrant

/-- A type whose text is that of no other: names satisfy `isWord`, tuples have two items or more,
    and no constructor has the name of a `BaseTyp`. -/
inductive Typ.Regular : Typ → Prop
  | tuple {items : List Typ} (hlen : 2 ≤ items.length) (hitems : ∀ t ∈ items, t.Regular) :
      Regular (.tuple items)
  | arrow {dom cod : Typ} (hdom : dom.Regular) (hcod : cod.Regular) : Regular (.arrow dom cod)
  | data {name : String} {args : List Typ} (hname : isWord name = true)
      (hbase : ∀ b : BaseTyp, b.render ≠ name) (hargs : ∀ t ∈ args, t.Regular) :
      Regular (.data name args)
  | base (b : BaseTyp) : Regular (.base b)
  | var {name : String} (hname : isWord name = true) : Regular (.var name)

namespace Typ

/-! ## The reader -/

/-- The type `t`, and the names after it applied to it one after the other. -/
def applied (t : Typ) : List Token → Typ × List Token
  | .word w :: ts => applied (.data w [t]) ts
  | ts => (t, ts)

/-- The type that the word `w` alone stands for: a `BaseTyp`, or a constructor without arguments. -/
def ofWord (w : String) : Typ :=
  match [BaseTyp.bool, .int, .nat, .string, .unit].find? (·.render = w) with
  | some b => .base b
  | none => .data w []

/-- Read a type variable after its quote, with the names after it (`applied`). -/
def readVar : Reader Typ
  | .word w :: ts => some (applied (.var w) ts)
  | _ => none

/-- The type that starts with types in brackets: alone they are an operand, and otherwise arguments
    of the name after the bracket. -/
def bracketed : List Typ → Reader Typ
  | [t], ts => some (applied t ts)
  | items, .word w :: ts => some (applied (.data w items) ts)
  | _, _ => none

/-- Read an operand with the names after it (`applied`). -/
def readOperand (typ : Reader Typ) (n : Nat) : Reader Typ
  | .word w :: ts => some (applied (ofWord w) ts)
  | .mark m :: ts =>
    if m = "'" then readVar ts
    else if m = "(" then do
      let (items, ts) ← separated (.mark ",") typ n ts
      let ts ← after (.mark ")") ts
      bracketed items ts
    else none
  | _ => none

/-- Read a type that is nested at most as deep as the bound: operands by `readOperand`, with
    products or an arrow between. -/
def read : Nat → Reader Typ
  | 0, _ => none
  | n + 1, ts => do
    let (items, ts) ← separated (.mark "\\<times>") (readOperand (read n) n) n ts
    match items, after (.mark "\\<Rightarrow>") ts with
    | [dom], some ts => do
      let (cod, ts) ← read n ts
      some (.arrow dom cod, ts)
    | [t], none => some (t, ts)
    | items, _ => some (.tuple items, ts)

/-! ## What is read -/

/-- The tokens that may stand after a type. -/
def stops : List Token := [.mark ",", .mark ")"]

/-- `applied` takes no name where a mark follows. -/
private theorem applied_of_follows {marks : List String} {rest : List Char}
    (h : Follows (marks.map .mark) rest) (t : Typ) : applied t (lex rest) = (t, lex rest) := by
  cases hlex : lex rest with
  | nil => rfl
  | cons first ts =>
    have hfirst := h.first first (by rw [hlex]; rfl)
    obtain ⟨m, _, rfl⟩ := List.mem_map.1 hfirst
    rfl

/-- `ofWord` gives back every `BaseTyp`. -/
private theorem ofWord_render (b : BaseTyp) : ofWord b.render = .base b := by cases b <;> decide

/-- `ofWord` of a word that is no `BaseTyp` is a constructor without arguments. -/
private theorem ofWord_of_ne {w : String} (h : ∀ b : BaseTyp, b.render ≠ w) :
    ofWord w = .data w [] := by
  have hnone : [BaseTyp.bool, .int, .nat, .string, .unit].find? (·.render = w) = none := by simp [h]
  rw [ofWord, hnone]

/-- A quote before a name is no quoted text: `lex` reads a mark and a word. -/
private theorem lex_var {name : String} (hname : isWord name = true) {rest : List Char}
    (hrest : Boundary rest) :
    lex (("'" ++ name).toList ++ rest) = .mark "'" :: .word name :: lex rest := by
  rw [String.toList_append, List.append_assoc, ← lex_word hname hrest]
  obtain ⟨hne, hall⟩ := isWord_iff.1 hname
  cases hlist : name.toList with
  | nil => exact absurd hlist hne
  | cons c cs =>
    have hc : isWordChar c = true := hall c (by rw [hlist]; exact List.mem_cons_self)
    -- The name does not start with a second quote.
    have hquote : c ≠ '\'' := by
      rintro rfl
      exact absurd hc (by decide)
    show lex ('\'' :: c :: (cs ++ rest)) = _
    rw [lex, if_neg (by decide), if_neg (by decide), if_neg (by decide), if_neg (by simp [hquote])]
    rfl

/-- The text of every `BaseTyp` is a word. -/
private theorem isWord_base (b : BaseTyp) : isWord b.render = true := by cases b <;> decide

private theorem delimits_times : Delimits " \\<times> " (.mark "\\<times>") :=
  delimits_of_isMark (by decide) 1 1 (by decide)

/-- Types up to the size `n` are read back by `read n` where nothing but a comma or a bracket can
    stand after them. -/
def ReadsBack (n : Nat) : Prop :=
  ∀ t : Typ, t.Regular → sizeOf t ≤ n → ∀ rest, Follows stops rest →
    read n (lex (t.render.toList ++ rest)) = some (t, lex rest)

section
variable {n : Nat} (ih : ReadsBack n)
include ih

/-- `readOperand` of types with commas between them, in brackets. -/
private theorem readOperand_open {items : List Typ} (hne : items ≠ [])
    (hitems : ∀ t ∈ items, t.Regular) (hsize : ∀ t ∈ items, sizeOf t ≤ n)
    (hlen : items.length ≤ n + 1) (rest : List Char) :
    readOperand (read n) n
      (lex ("(".toList ++ ((", ".intercalate (items.map render)).toList ++ (")".toList ++ rest)))) =
        bracketed items (lex rest) := by
  have hseparated : separated (.mark ",") (read n) n
      (lex ((", ".intercalate (items.map render)).toList ++ (")".toList ++ rest))) =
        some (items, .mark ")" :: lex rest) := by
    rw [← delimits_close.lex_append]
    refine separated_eq_of_follows delimits_comma hne (fun t ht tail htail => ?_)
      (delimits_close.follows (List.mem_singleton.2 rfl) rest) (by decide) hlen
    exact ih t (hitems t ht) (hsize t ht) tail htail
  rw [delimits_open.lex_append, readOperand, if_neg (by decide), if_pos rfl, hseparated]
  simp

/-- `readOperand` of one type in brackets is the type with the names after it. -/
private theorem readOperand_bracketed {t : Typ} (ht : t.Regular) (hn : sizeOf t ≤ n)
    (rest : List Char) :
    readOperand (read n) n (lex (("(" ++ t.render ++ ")").toList ++ rest)) =
      some (applied t (lex rest)) := by
  have hopen := readOperand_open ih (List.cons_ne_nil t []) (by simpa using ht) (by simpa using hn)
    (by simp) rest
  rw [List.map_singleton, String.intercalate_singleton, bracketed] at hopen
  simpa only [String.toList_append, List.append_assoc] using hopen

/-- `readOperand` reads back an operand, together with the names after it. -/
theorem readOperand_operand {t : Typ} (ht : t.Regular) (hn : sizeOf t ≤ n + 1)
    (hn' : t.isSimple = false → sizeOf t ≤ n) {rest : List Char} (hrest : Boundary rest) :
    readOperand (read n) n (lex ((asOperand t.isSimple t.render).toList ++ rest)) =
      some (applied t (lex rest)) := by
  induction ht generalizing rest with
  | tuple hlen hitems _ => exact readOperand_bracketed ih (.tuple hlen hitems) (hn' rfl) rest
  | arrow hdom hcod _ _ => exact readOperand_bracketed ih (.arrow hdom hcod) (hn' rfl) rest
  | base b =>
    show readOperand (read n) n (lex (b.render.toList ++ rest)) = _
    rw [lex_word (isWord_base b) hrest, readOperand, ofWord_render]
  | @var name hname =>
    show readOperand (read n) n (lex (("'" ++ name).toList ++ rest)) = _
    rw [lex_var hname hrest, readOperand, if_pos rfl, readVar]
  | @data name args hname hbase hargs hih =>
    show readOperand (read n) n (lex ((Typ.data name args).render.toList ++ rest)) = _
    simp only [data.sizeOf_spec] at hn
    match args with
    | [] => rw [render, lex_word hname hrest, readOperand, ofWord_of_ne hbase]
    | [arg] =>
      -- The argument is read first, and the name after it is then applied to it.
      have hmem : arg ∈ [arg] := List.mem_singleton.2 rfl
      have hsize : sizeOf arg ≤ n := sizeOf_le_of_mem hmem (by omega)
      have harg := hih arg hmem (by omega) (fun _ => hsize) (boundary_space (name.toList ++ rest))
      simp only [render, String.toList_append, List.append_assoc, harg]
      rw [lex_space_append, lex_word hname hrest, applied]
    | arg :: arg' :: args =>
      -- Several arguments share one pair of brackets, and the name follows it.
      have hsize : ∀ t ∈ arg :: arg' :: args, sizeOf t ≤ n := fun t ht =>
        sizeOf_le_of_mem ht (by omega)
      have hlen : (arg :: arg' :: args).length ≤ n + 1 := length_le_of_sizeOf_le (by omega)
      have hopen := readOperand_open ih (List.cons_ne_nil arg (arg' :: args)) hargs hsize hlen
        (" ".toList ++ (name.toList ++ rest))
      rw [lex_space_append, lex_word hname hrest, bracketed] at hopen
      · have hclose : ") ".toList = ")".toList ++ " ".toList := by decide
        rw [← hopen, render, renders_eq_map, ← List.map_cons]
        · simp only [String.toList_append, hclose, List.append_assoc]
        · simp
      · simp

/-- `readOperand` of an operand that no name can follow. -/
theorem readOperand_of_follows {t : Typ} (ht : t.Regular) (hn : sizeOf t ≤ n + 1)
    (hn' : t.isSimple = false → sizeOf t ≤ n) (marks : List String) {rest : List Char}
    (hrest : Follows (marks.map .mark) rest) :
    readOperand (read n) n (lex ((asOperand t.isSimple t.render).toList ++ rest)) =
      some (t, lex rest) := by
  rw [readOperand_operand ih ht hn hn' hrest.boundary, applied_of_follows hrest]

/-- What `separated` reads first of a type that is no tuple: a single operand. -/
private theorem separated_operand {t : Typ} (ht : t.Regular) (hn : sizeOf t ≤ n + 1)
    (hn' : t.isSimple = false → sizeOf t ≤ n) (marks : List String) (hmarks : "\\<times>" ∉ marks)
    {rest : List Char} (hrest : Follows (marks.map .mark) rest) :
    separated (.mark "\\<times>") (readOperand (read n) n) n
      (lex ((asOperand t.isSimple t.render).toList ++ rest)) = some ([t], lex rest) := by
  have hmore : more (.mark "\\<times>") (readOperand (read n) n) n (lex rest) = ([], lex rest) :=
    many_eq_nil (by rw [hrest.after_eq_none (by simpa using hmarks), Option.bind_none]) n
  simp only [separated, readOperand_of_follows ih ht hn hn' marks hrest, hmore]

/-- `read` reads back a type that is `isSimple`. -/
private theorem read_simple {t : Typ} (ht : t.Regular) (hsimple : t.isSimple = true)
    (hn : sizeOf t ≤ n + 1) {rest : List Char} (hrest : Follows stops rest) :
    read (n + 1) (lex (t.render.toList ++ rest)) = some (t, lex rest) := by
  have hfirst := separated_operand ih ht hn (by simp [hsimple]) [",", ")"] (by decide) hrest
  rw [hsimple, asOperand, if_pos rfl] at hfirst
  have hend : after (.mark "\\<Rightarrow>") (lex rest) = none := hrest.after_eq_none (by decide)
  simp [read, hfirst, hend]

/-- `read` reads back an `arrow`. -/
private theorem read_arrow {dom cod : Typ} (hdom : dom.Regular) (hcod : cod.Regular)
    (hn : sizeOf (Typ.arrow dom cod) ≤ n + 1) {rest : List Char} (hrest : Follows stops rest) :
    read (n + 1) (lex ((Typ.arrow dom cod).render.toList ++ rest)) =
      some (.arrow dom cod, lex rest) := by
  simp only [arrow.sizeOf_spec] at hn
  have hfirst := separated_operand ih hdom (by omega) (fun _ => by omega) ["\\<Rightarrow>"]
    (by decide) (delimits_arrow.follows (List.mem_singleton.2 rfl) (cod.render.toList ++ rest))
  have hsecond := ih cod hcod (by omega) rest hrest
  simp only [render, String.toList_append, List.append_assoc, read, hfirst]
  rw [delimits_arrow.lex_append]
  simp [hsecond]

/-- `read` reads back a `tuple` of two items or more. -/
private theorem read_tuple {items : List Typ} (hlen : 2 ≤ items.length)
    (hitems : ∀ t ∈ items, t.Regular) (hn : sizeOf (Typ.tuple items) ≤ n + 1) {rest : List Char}
    (hrest : Follows stops rest) :
    read (n + 1) (lex ((Typ.tuple items).render.toList ++ rest)) =
      some (.tuple items, lex rest) := by
  simp only [tuple.sizeOf_spec] at hn
  have hall := separated_eq_of_follows delimits_times (List.ne_nil_of_length_pos (by omega))
    (fun t ht tail htail => readOperand_of_follows ih (hitems t ht) (sizeOf_le_of_mem ht (by omega))
      (fun _ => sizeOf_le_of_mem ht (by omega)) ["\\<times>", ",", ")"] htail)
    hrest (by decide) (length_le_of_sizeOf_le (n := n + 1) (by omega))
  rw [render, operands_eq_map, read, hall]
  -- One item alone would be an operand, so the number of items matters here.
  match items, hlen with
  | t :: u :: items, _ => simp

end

/-- A `Regular` type is read back from its text by `read`. -/
theorem read_render (n : Nat) : ReadsBack n := by
  induction n with
  | zero =>
    intro t ht hn
    cases t <;> simp at hn
  | succ n ih =>
    -- By the bound on the size: every part of a type is smaller than the type.
    intro t ht hn rest hrest
    cases ht with
    | tuple hlen hitems => exact read_tuple ih hlen hitems hn hrest
    | arrow hdom hcod => exact read_arrow ih hdom hcod hn hrest
    | data hname hbase hargs => exact read_simple ih (.data hname hbase hargs) rfl hn hrest
    | base b => exact read_simple ih (.base b) rfl hn hrest
    | var hname => exact read_simple ih (.var hname) rfl hn hrest

/-- Types whose tuples have two items or more, whose names are words and whose constructors are not
    called as a base type have the same text only if they are equal, however tuples, arrows and
    applied constructors are nested. -/
theorem render_inj {t u : Typ} (ht : t.Regular) (hu : u.Regular) : t.render = u.render ↔ t = u := by
  refine ⟨fun h => ?_, congrArg render⟩
  -- One bound serves for both types, so the reader gives one answer.
  have hread := read_render (sizeOf t + sizeOf u) t ht (Nat.le_add_right ..) [] (follows_nil stops)
  have hread' := read_render (sizeOf t + sizeOf u) u hu (Nat.le_add_left ..) [] (follows_nil stops)
  rw [h, hread'] at hread
  exact (Prod.mk.inj (Option.some.inj hread)).1.symm

/-- The constructor `rel` applied to `args`. -/
def related (args : List Typ) : Typ := .data "rel" args

/-- The constructor `rel` applied to `Regular` types is `Regular`. -/
private theorem related_regular {args : List Typ} (h : ∀ t ∈ args, t.Regular) :
    (related args).Regular :=
  .data (by decide) (fun b => by cases b <;> decide) h

/-- Brackets around a pair that is the one argument, and around two arguments:
    `((int ⇒ bool) × 'a) rel` and `(int ⇒ bool, 'a) rel`. -/
theorem render_inj_brackets :
    (related [.tuple [.arrow .int .bool, .var "a"]]).Regular ∧
    (related [.arrow .int .bool, .var "a"]).Regular ∧
      (related [.tuple [.arrow .int .bool, .var "a"]]).render ≠
      (related [.arrow .int .bool, .var "a"]).render := by
  have hitems : ∀ t ∈ [Typ.arrow .int .bool, .var "a"], t.Regular :=
    List.forall_mem_cons.2 ⟨.arrow (.base .int) (.base .bool),
      List.forall_mem_singleton.2 (.var (by decide))⟩
  have htuple : ∀ t ∈ [Typ.tuple [.arrow .int .bool, .var "a"]], t.Regular :=
    List.forall_mem_singleton.2 (.tuple (by decide) hitems)
  have hpair := related_regular htuple
  have hlist := related_regular hitems
  exact ⟨hpair, hlist, fun h => absurd ((render_inj hpair hlist).1 h) (by decide)⟩

end Typ

end Warrant
