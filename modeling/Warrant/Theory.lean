import Warrant.Logic.Decl

/-! # Theories

A theory is a name, what it imports and its declarations in order; its text is what the prover
reads. -/

namespace Warrant

/-- A theory: its `name`, what it `imports` and its declarations `decls` in order. -/
structure Theory where
  name : String
  imports : List String
  decls : List Decl

namespace Theory

/-- The first lemma of `t` with the name `name`. -/
def lemma? (t : Theory) (name : String) : Option Lemma :=
  t.decls.findSome? fun
    | .statement l => if l.name = name then some l else none
    | _ => none

/-- The names that the declarations of `t` introduce, in order. -/
def names (t : Theory) : List String := t.decls.filterMap Decl.name?

/-- The text of a theory, with `Decl.render` of each of its `decls`. -/
def render (t : Theory) : String :=
  "theory " ++ t.name ++ "\nimports " ++ " ".intercalate t.imports ++ "\nbegin\n" ++
    String.join (t.decls.map fun d => "\n" ++ d.render ++ "\n") ++ "\nend\n"

end Theory

end Warrant
