/-! # Types of the source program

Types of variables and functions.  `SourceTy.pathTo?` finds the first occurrence of a type variable
from left to right, as the argument positions that lead to it. -/

namespace Warrant

/-- A type of the source program, as a `Variable` or a `Function` has it. -/
inductive SourceTy where
  | bool
  | int
  | var (name : String)
  | ctor (name : String) (args : List SourceTy)
  deriving Repr

/-- A step into a type: to the argument at `index` of a constructor with `arity` arguments. -/
structure Step where
  arity : Nat
  index : Nat
  deriving DecidableEq, Repr

namespace SourceTy

instance : Inhabited SourceTy := ⟨.bool⟩

mutual
/-- The text of a type in messages and lemma names. -/
def render : SourceTy → String
  | .bool => "bool"
  | .int => "int"
  | .var name => "'" ++ name
  | .ctor name args => " ".intercalate (name :: renders args)
/-- `render` of each of several types. -/
def renders : List SourceTy → List String
  | [] => []
  | t :: ts => t.render :: renders ts
end

/-- Whether values of the type are boxed when they become values of the semantics: `bool` and
    `int`. -/
def isPrimitive : SourceTy → Bool
  | .bool | .int => true
  | _ => false

mutual
/-- The steps to the first occurrence of the type variable `v`. -/
def pathTo? (v : String) : SourceTy → Option (List Step)
  | .bool => none
  | .int => none
  | .var name => if name = v then some [] else none
  | .ctor _ args => pathAmong? v args.length 0 args
/-- The steps to the first occurrence of the type variable `v` in the arguments of a constructor,
    from the one at `index` on. -/
def pathAmong? (v : String) (arity index : Nat) : List SourceTy → Option (List Step)
  | [] => none
  | t :: ts =>
    match t.pathTo? v with
    | some path => some (⟨arity, index⟩ :: path)
    | none => pathAmong? v arity (index + 1) ts
end

/-- Whether the type variable `v` occurs in `t`. -/
def mentions (t : SourceTy) (v : String) : Bool := (t.pathTo? v).isSome

end SourceTy

end Warrant
