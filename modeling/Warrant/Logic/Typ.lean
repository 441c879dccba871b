import Warrant.Data.Table

/-! # Types of the target logic

Types annotate terms and declarations of a generated theory.  This file has the types themselves,
decidable equality, their printed form and the replacement of type variables.

In the printed form arrows and tuples are bracketed where they stand as an operand (`Typ.isSimple`);
a constructor follows its arguments, and two or more arguments share one pair of brackets. -/

namespace Warrant

/-- `text` as an operand: in round brackets, unless it can stand `bare`. -/
def asOperand (bare : Bool) (text : String) : String := if bare then text else "(" ++ text ++ ")"

/-- The base types of the target logic, the argument of `Typ.base`. -/
inductive BaseTyp where
  | bool
  | int
  | nat
  | string
  | unit
  deriving DecidableEq, Repr

/-- The text of a `BaseTyp`. -/
def BaseTyp.render : BaseTyp → String
  | .bool => "bool"
  | .int => "int"
  | .nat => "nat"
  | .string => "string"
  | .unit => "unit"

/-- A type of the target logic. -/
inductive Typ where
  | tuple (items : List Typ)
  | arrow (dom cod : Typ)
  /-- An applied type constructor, such as `'a val` or `(int, bool) prod`. -/
  | data (name : String) (args : List Typ)
  | base (b : BaseTyp)
  | var (name : String)
  deriving Repr

namespace Typ

instance : Inhabited Typ := ⟨.base .unit⟩

/-- The type of truth values, `BaseTyp.bool`. -/
def bool : Typ := .base .bool

/-- The type of integers, `BaseTyp.int`. -/
def int : Typ := .base .int

/-- The type of natural numbers, `BaseTyp.nat`. -/
def nat : Typ := .base .nat

/-- The function type `a₁ ⇒ … ⇒ aₙ ⇒ ret`. -/
def curried (args : List Typ) (ret : Typ) : Typ := args.foldr arrow ret

/-! ## Equality -/

mutual
/-- Structural equality of types; `==` on `Typ` is this function. -/
def beq : Typ → Typ → Bool
  | .tuple as, .tuple bs => beqs as bs
  | .arrow a₁ a₂, .arrow b₁ b₂ => beq a₁ b₁ && beq a₂ b₂
  | .data n as, .data m bs => n == m && beqs as bs
  | .base a, .base b => a == b
  | .var n, .var m => n == m
  | _, _ => false
/-- `beq` on lists of types. -/
def beqs : List Typ → List Typ → Bool
  | [], [] => true
  | a :: as, b :: bs => beq a b && beqs as bs
  | _, _ => false
end

mutual
/-- `beq` relates only equal types. -/
theorem eq_of_beq : ∀ {a b : Typ}, beq a b = true → a = b
  | .tuple as, b, h => by
    -- `beq` is false of different constructors, so the other side has the same one.
    cases b <;> simp only [beq, Bool.false_eq_true] at h
    rw [eq_of_beqs h]
  | .arrow a₁ a₂, b, h => by
    cases b <;> simp only [beq, Bool.false_eq_true, Bool.and_eq_true] at h
    rw [eq_of_beq h.1, eq_of_beq h.2]
  | .data n as, b, h => by
    cases b <;> simp only [beq, Bool.false_eq_true, Bool.and_eq_true, beq_iff_eq] at h
    rw [h.1, eq_of_beqs h.2]
  | .base p, b, h => by
    cases b <;> simp only [beq, Bool.false_eq_true, beq_iff_eq] at h
    rw [h]
  | .var n, b, h => by
    cases b <;> simp only [beq, Bool.false_eq_true, beq_iff_eq] at h
    rw [h]
/-- `beqs` relates only equal lists. -/
theorem eq_of_beqs : ∀ {as bs : List Typ}, beqs as bs = true → as = bs
  | [], bs, h => by
    cases bs <;> simp only [beqs, Bool.false_eq_true] at h
    rfl
  | a :: as, bs, h => by
    cases bs <;> simp only [beqs, Bool.false_eq_true, Bool.and_eq_true] at h
    rw [eq_of_beq h.1, eq_of_beqs h.2]
end

mutual
/-- `beq` relates every type to itself. -/
theorem beq_self : ∀ a : Typ, beq a a = true
  | .tuple as => by simp [beq, beqs_self as]
  | .arrow a₁ a₂ => by simp [beq, beq_self a₁, beq_self a₂]
  | .data n as => by simp [beq, beqs_self as]
  | .base p => by simp [beq]
  | .var n => by simp [beq]
/-- `beqs` relates every list of types to itself. -/
theorem beqs_self : ∀ as : List Typ, beqs as as = true
  | [] => rfl
  | a :: as => by simp [beqs, beq_self a, beqs_self as]
end

instance : BEq Typ := ⟨beq⟩

instance : LawfulBEq Typ where
  eq_of_beq := eq_of_beq
  rfl := beq_self _

instance : DecidableEq Typ := instDecidableEqOfLawfulBEq

/-! ## Printed form -/

/-- Whether a type stands as an operand of `render` without brackets. -/
def isSimple : Typ → Bool
  | .arrow .. | .tuple .. => false
  | _ => true

mutual
/-- The text of a type. -/
def render : Typ → String
  | .tuple items => " \\<times> ".intercalate (operands items)
  | .arrow dom cod => asOperand dom.isSimple dom.render ++ " \\<Rightarrow> " ++ cod.render
  | .data name [] => name
  | .data name [arg] => asOperand arg.isSimple arg.render ++ " " ++ name
  | .data name (arg :: args) => "(" ++ ", ".intercalate (arg.render :: renders args) ++ ") " ++ name
  | .base b => b.render
  | .var name => "'" ++ name
/-- `render` of each of several types, as an operand. -/
def operands : List Typ → List String
  | [] => []
  | t :: ts => asOperand t.isSimple t.render :: operands ts
/-- `render` of each of several types. -/
def renders : List Typ → List String
  | [] => []
  | t :: ts => t.render :: renders ts
end

/-- `operands` goes through the types one by one. -/
theorem operands_eq_map (ts : List Typ) :
    operands ts = ts.map fun t => asOperand t.isSimple t.render := by
  induction ts with
  | nil => rfl
  | cons t ts ih => simp [operands, ih]

/-- `renders` goes through the types one by one. -/
theorem renders_eq_map (ts : List Typ) : renders ts = ts.map render := by
  induction ts with
  | nil => rfl
  | cons t ts ih => simp [renders, ih]

/-! ## Replacing type variables -/

mutual
/-- Replace the type variables that have an entry in `σ`. -/
def subst (σ : Table String Typ) : Typ → Typ
  | .tuple items => .tuple (substs σ items)
  | .arrow dom cod => .arrow (dom.subst σ) (cod.subst σ)
  | .data name args => .data name (substs σ args)
  | .base b => .base b
  | .var name => (σ.get? name).getD (.var name)
/-- `subst` in each of several types. -/
def substs (σ : Table String Typ) : List Typ → List Typ
  | [] => []
  | t :: ts => t.subst σ :: substs σ ts
end

end Typ

end Warrant
