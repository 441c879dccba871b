import Warrant.Logic.Typ

/-! # Terms of the target logic

Terms are what generated theories speak about: statements of lemmas, right-hand sides of
definitions, verification conditions.  This file has the terms, decidable equality and the
constructors that the rest of the library uses.

A quantifier that lists types has one for each identifier that it binds.  `Term.quantifier?` and
`Term.metaAll?` refuse any other number, and `Term.metaAll` takes the pairs. -/

namespace Warrant

/-- A name in a `Term`. -/
abbrev Ident := String

/-- A literal constant, the `value` of a `Term.lit`. -/
inductive Literal where
  | bool (b : Bool)
  | nat (n : Nat)
  | int (n : Int)
  | str (s : String)
  deriving DecidableEq, Repr

/-- Operators of a `Term.nary`, written between their operands. -/
inductive Op where
  | eq
  | neq
  | lt
  | le
  | gt
  | ge
  | and
  | or
  | implies
  /-- Implication between the hypotheses of a lemma, unlike `implies` inside a formula. -/
  | metaImp
  | add
  | sub
  | elem
  | inter
  | append
  | compose
  deriving DecidableEq, Repr

/-- Kinds of quantifier of a `Term.quant`. -/
inductive Quant where
  | all
  | ex
  /-- Universal closure of a lemma, unlike `all` inside a formula. -/
  | metaAll
  | lambda
  deriving DecidableEq, Repr

/-- A term of the target logic. -/
inductive Term where
  | app (head : Term) (args : List Term)
  | list (items : List Term)
  | set (items : List Term)
  | record (fields : List (Ident × Term))
  | tuple (items : List Term)
  | ident (name : Ident)
  | nary (op : Op) (args : List Term)
  /-- Binds the identifiers `bound` in `body`.  `types`, where given, has one for each
      identifier. -/
  | quant (kind : Quant) (bound : List Ident) (types : Option (List Typ)) (body : Term)
  /-- A split of `scrutinee` into `arms` of pattern and result. -/
  | caseOf (scrutinee : Term) (arms : List (Term × Term))
  | typed (term : Term) (typ : Typ)
  | lit (value : Literal)
  deriving Repr

namespace Term

instance : Inhabited Term := ⟨.list []⟩

/-! ## Equality -/

mutual
/-- Structural equality of terms; `==` on `Term` is this function. -/
def beq : Term → Term → Bool
  | .app h as, .app k bs => beq h k && beqs as bs
  | .list as, .list bs => beqs as bs
  | .set as, .set bs => beqs as bs
  | .record as, .record bs => beqFields as bs
  | .tuple as, .tuple bs => beqs as bs
  | .ident a, .ident b => a == b
  | .nary o as, .nary p bs => o == p && beqs as bs
  | .quant q xs ts a, .quant r ys us b => q == r && xs == ys && ts == us && beq a b
  | .caseOf s as, .caseOf t bs => beq s t && beqArms as bs
  | .typed a t, .typed b u => beq a b && t == u
  | .lit a, .lit b => a == b
  | _, _ => false
/-- `beq` on lists of terms. -/
def beqs : List Term → List Term → Bool
  | [], [] => true
  | a :: as, b :: bs => beq a b && beqs as bs
  | _, _ => false
termination_by structural as => as
/-- `beq` on the fields of a `Term.record`, labels included. -/
def beqFields : List (Ident × Term) → List (Ident × Term) → Bool
  | [], [] => true
  | (k, a) :: as, (l, b) :: bs => k == l && beq a b && beqFields as bs
  | _, _ => false
/-- `beq` on the arms of a `Term.caseOf`. -/
def beqArms : List (Term × Term) → List (Term × Term) → Bool
  | [], [] => true
  | (p, a) :: as, (q, b) :: bs => beq p q && beq a b && beqArms as bs
  | _, _ => false
end

mutual
/-- `beq` relates only equal terms. -/
theorem eq_of_beq : ∀ {a b : Term}, beq a b = true → a = b
  | .app h as, b, heq => by
    -- `beq` is false of different constructors, so the other side has the same one.
    cases b <;> simp only [beq, Bool.false_eq_true, Bool.and_eq_true] at heq
    rw [eq_of_beq heq.1, eq_of_beqs heq.2]
  | .list as, b, heq => by
    cases b <;> simp only [beq, Bool.false_eq_true] at heq
    rw [eq_of_beqs heq]
  | .set as, b, heq => by
    cases b <;> simp only [beq, Bool.false_eq_true] at heq
    rw [eq_of_beqs heq]
  | .record as, b, heq => by
    cases b <;> simp only [beq, Bool.false_eq_true] at heq
    rw [eq_of_beqFields heq]
  | .tuple as, b, heq => by
    cases b <;> simp only [beq, Bool.false_eq_true] at heq
    rw [eq_of_beqs heq]
  | .ident x, b, heq => by
    cases b <;> simp only [beq, Bool.false_eq_true, beq_iff_eq] at heq
    rw [heq]
  | .nary o as, b, heq => by
    cases b <;> simp only [beq, Bool.false_eq_true, Bool.and_eq_true, beq_iff_eq] at heq
    rw [heq.1, eq_of_beqs heq.2]
  | .quant q xs ts t, b, heq => by
    cases b <;> simp only [beq, Bool.false_eq_true, Bool.and_eq_true, beq_iff_eq] at heq
    rw [heq.1.1.1, heq.1.1.2, heq.1.2, eq_of_beq heq.2]
  | .caseOf s as, b, heq => by
    cases b <;> simp only [beq, Bool.false_eq_true, Bool.and_eq_true] at heq
    rw [eq_of_beq heq.1, eq_of_beqArms heq.2]
  | .typed t u, b, heq => by
    cases b <;> simp only [beq, Bool.false_eq_true, Bool.and_eq_true, beq_iff_eq] at heq
    rw [eq_of_beq heq.1, heq.2]
  | .lit l, b, heq => by
    cases b <;> simp only [beq, Bool.false_eq_true, beq_iff_eq] at heq
    rw [heq]
/-- `beqs` relates only equal lists. -/
theorem eq_of_beqs : ∀ {as bs : List Term}, beqs as bs = true → as = bs
  | [], bs, heq => by
    cases bs <;> simp only [beqs, Bool.false_eq_true] at heq
    rfl
  | a :: as, bs, heq => by
    cases bs <;> simp only [beqs, Bool.false_eq_true, Bool.and_eq_true] at heq
    rw [eq_of_beq heq.1, eq_of_beqs heq.2]
/-- `beqFields` relates only equal lists of fields. -/
theorem eq_of_beqFields : ∀ {as bs : List (Ident × Term)}, beqFields as bs = true → as = bs
  | [], bs, heq => by
    cases bs <;> simp only [beqFields, Bool.false_eq_true] at heq
    rfl
  | (k, a) :: as, bs, heq => by
    cases bs <;> simp only [beqFields, Bool.false_eq_true, Bool.and_eq_true, beq_iff_eq] at heq
    rw [heq.1.1, eq_of_beq heq.1.2, eq_of_beqFields heq.2]
/-- `beqArms` relates only equal lists of arms. -/
theorem eq_of_beqArms : ∀ {as bs : List (Term × Term)}, beqArms as bs = true → as = bs
  | [], bs, heq => by
    cases bs <;> simp only [beqArms, Bool.false_eq_true] at heq
    rfl
  | (p, a) :: as, bs, heq => by
    cases bs <;> simp only [beqArms, Bool.false_eq_true, Bool.and_eq_true] at heq
    rw [eq_of_beq heq.1.1, eq_of_beq heq.1.2, eq_of_beqArms heq.2]
end

mutual
/-- `beq` relates every term to itself. -/
theorem beq_self : ∀ a : Term, beq a a = true
  | .app h as => by simp [beq, beq_self h, beqs_self as]
  | .list as => by simp [beq, beqs_self as]
  | .set as => by simp [beq, beqs_self as]
  | .record as => by simp [beq, beqFields_self as]
  | .tuple as => by simp [beq, beqs_self as]
  | .ident x => by simp [beq]
  | .nary o as => by simp [beq, beqs_self as]
  | .quant q xs ts t => by simp [beq, beq_self t]
  | .caseOf s as => by simp [beq, beq_self s, beqArms_self as]
  | .typed t u => by simp [beq, beq_self t]
  | .lit l => by simp [beq]
/-- `beqs` relates every list of terms to itself. -/
theorem beqs_self : ∀ as : List Term, beqs as as = true
  | [] => rfl
  | a :: as => by simp [beqs, beq_self a, beqs_self as]
/-- `beqFields` relates every list of fields to itself. -/
theorem beqFields_self : ∀ as : List (Ident × Term), beqFields as as = true
  | [] => rfl
  | (k, a) :: as => by simp [beqFields, beq_self a, beqFields_self as]
/-- `beqArms` relates every list of arms to itself. -/
theorem beqArms_self : ∀ as : List (Term × Term), beqArms as as = true
  | [] => rfl
  | (p, a) :: as => by simp [beqArms, beq_self p, beq_self a, beqArms_self as]
end

instance : BEq Term := ⟨beq⟩

instance : LawfulBEq Term where
  eq_of_beq := eq_of_beq
  rfl := beq_self _

instance : DecidableEq Term := instDecidableEqOfLawfulBEq

/-! ## Constructors -/

/-- `Term.app` of a named function to arguments. -/
def call (name : Ident) (args : List Term) : Term := .app (.ident name) args

/-- `Term.nary` of an operator between two operands. -/
def binary (op : Op) (left right : Term) : Term := .nary op [left, right]

/-- `left = right` -/
def eq (left right : Term) : Term := binary .eq left right

/-- `left ≠ right` -/
def neq (left right : Term) : Term := binary .neq left right

/-- `left ≤ right` -/
def le (left right : Term) : Term := binary .le left right

/-- `left ≥ right` -/
def ge (left right : Term) : Term := binary .ge left right

/-- `left ∧ right` -/
def and (left right : Term) : Term := binary .and left right

/-- `left ⟶ right` -/
def implies (left right : Term) : Term := binary .implies left right

/-- `left ⟹ right` between hypotheses. -/
def metaImp (left right : Term) : Term := binary .metaImp left right

/-- A truth value as a `Term.lit`. -/
def bool (b : Bool) : Term := .lit (.bool b)

/-- A natural number as a `Term.lit`. -/
def nat (n : Nat) : Term := .lit (.nat n)

/-- An integer as a `Term.lit`. -/
def int (n : Int) : Term := .lit (.int n)

/-- A string as a `Term.lit`. -/
def str (s : String) : Term := .lit (.str s)

/-- A formula that is quantified with `Quant.all`, with no types. -/
def all (bound : List Ident) (body : Term) : Term := .quant .all bound none body

/-- A function that takes the identifiers `bound`, with no types. -/
def lambda (bound : List Ident) (body : Term) : Term := .quant .lambda bound none body

/-- A `Term.quant` whose `types`, if any are given, are as many as the identifiers `bound`. -/
def quantifier? (kind : Quant) (bound : List Ident) (types : Option (List Typ)) (body : Term) :
    Option Term :=
  match types with
  | none => some (.quant kind bound none body)
  | some ts => if ts.length = bound.length then some (.quant kind bound (some ts) body) else none

/-- The universal closure of a lemma over typed identifiers, with `Quant.metaAll`.  With no
    `binders` it is `body`. -/
def metaAll (binders : List (Ident × Typ)) (body : Term) : Term :=
  match binders with
  | [] => body
  | _ => .quant .metaAll (binders.map Prod.fst) (some (binders.map Prod.snd)) body

/-- `metaAll` on separate lists of identifiers and types, which have to be of one length unless
    there is nothing to close over. -/
def metaAll? (bound : List Ident) (types : List Typ) (body : Term) : Option Term :=
  if bound.isEmpty then some body else quantifier? .metaAll bound (some types) body

/-- Whether a term stands as an operand without brackets in `Term.render`. -/
def isAtomic : Term → Bool
  | .ident _ | .lit _ | .list _ | .set _ | .tuple _ | .record _ => true
  | _ => false

end Term

end Warrant
