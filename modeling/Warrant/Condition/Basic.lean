import Warrant.Logic.Decl
import Warrant.Logic.Subst
import Warrant.Source.Ty

/-! # Verification conditions and their axioms

A verification condition comes with axioms about the functions, variables and types in it.  Each
axiom becomes a definition over its free identifiers (`VcAxiom.definition`), and the condition
assumes the defined name applied to what stands for these identifiers (`VcAxiom.hypothesis`). -/

namespace Warrant

/-- A type constructor of the source program, with its `arity`. -/
structure TypeCtor where
  name : String
  arity : Nat

/-- What an axiom about boxed values says, the `kind` of a `VcAxiomKind.cast`. -/
inductive CastKind where
  | boxedOfUnboxed
  | unboxedOfBoxed
  | typeOfBoxed
  deriving DecidableEq, Repr

/-- Why a `VcAxiom` belongs to a verification condition. -/
inductive VcAxiomKind where
  /-- An axiom of the source program; there is no proof step for these. -/
  | source
  /-- The result of the function named `function` has its type. -/
  | functionOutput (function : String)
  /-- A variable, named as in the verification condition, has its type. -/
  | variable (name : String)
  /-- The number `value` of a primitive type. -/
  | ctorBasic (ty : SourceTy) (value : Int)
  /-- The number `value` of a type constructor. -/
  | ctorDecl (ctor : TypeCtor) (value : Int)
  /-- The projection at `index` undoes its type constructor. -/
  | leftInverse (ctor : TypeCtor) (index : Nat)
  | cast (ty : SourceTy) (kind : CastKind)

/-- A word for the kind of an axiom, as `Error.unsupportedAxiom` names it. -/
def VcAxiomKind.describe : VcAxiomKind → String
  | .source => "source axiom"
  | .functionOutput _ => "function output"
  | .variable _ => "variable"
  | .ctorBasic .. => "basic type constructor"
  | .ctorDecl .. => "declared constructor"
  | .leftInverse .. => "left inverse"
  | .cast .. => "cast"

/-- An axiom of a verification condition. -/
structure VcAxiom where
  name : String
  term : Term
  kind : VcAxiomKind

namespace VcAxiom

/-- The definition of `a.name` over the free identifiers of `a.term`. -/
def definition (a : VcAxiom) : Decl :=
  .definition a.name { lhs := a.term.free.map .ident, rhs := a.term }

/-- `a.name` applied to what stands for the free identifiers of `a.term` under `σ`. -/
def hypothesis (a : VcAxiom) (σ : Assignment) : Term :=
  match a.term.free.map fun x => (Term.ident x).subst σ with
  | [] => .ident a.name
  | args => .call a.name args

end VcAxiom

/-- A verification condition over source names, with its `axioms`. -/
structure VcInput where
  condition : Term
  axioms : List VcAxiom := []

end Warrant
