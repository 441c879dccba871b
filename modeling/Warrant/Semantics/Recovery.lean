import Warrant.Semantics.Vocabulary

/-! # Recovering type parameters from argument values

A type parameter that occurs in an argument's type can be read off the type of the argument's value.
The argument is the first one whose type mentions the parameter, and the place in its type the first
occurrence. -/

namespace Warrant.Semantics

/-- Follow the steps of `path` into a closed type, the outermost first. -/
def projectAlong (path : List Step) (t : Term) : Term :=
  path.foldl (fun acc step => projection step.index step.arity acc) t

/-- The term for what the type parameter `tv` stands for, given the types and values of the
    arguments.  There is none if no argument type mentions it (`SourceTy.pathTo?`). -/
def recover? (tv : String) (a : Term) (args : List (SourceTy × Term)) : Option Term :=
  args.findSome? fun (ty, value) =>
    (ty.pathTo? tv).map fun path => projectAlong path (vcTypeOfVal a value)

end Warrant.Semantics
