import Warrant.Logic.Term

/-! # Vocabulary of the logic's base library

The options, lists, sets and maps that every generated theory talks about, as functions on terms. -/

namespace Warrant.Vocabulary

open Term (call)

/-- `Some t` -/
def someOf (t : Term) : Term := call "Some" [t]

/-- `None` -/
def noneOf : Term := .ident "None"

/-- `the t`, the value in an option. -/
def the (t : Term) : Term := call "the" [t]

/-- `map_of list key`, the value that an association list has for a key, as an option. -/
def mapOf (list key : Term) : Term := call "map_of" [list, key]

/-- `nth list index`, the item of a list at an index. -/
def nth (list index : Term) : Term := call "nth" [list, index]

/-- `set list`, the items of a list as a set. -/
def setOfList (list : Term) : Term := call "set" [list]

/-- `x ∈ s` -/
def elem (x s : Term) : Term := .binary .elem x s

/-- `[]`, the empty list. -/
def emptyList : Term := .list []

/-- `{}`, the empty set. -/
def emptySet : Term := .set []

/-- `a ∩ b`, the intersection of two sets. -/
def inter (a b : Term) : Term := .binary .inter a b

/-- `Min s`, the least element of a set. -/
def setMin (s : Term) : Term := call "Min" [s]

/-- `Max s`, the greatest element of a set. -/
def setMax (s : Term) : Term := call "Max" [s]

/-- `a @ b`, two lists, one after the other. -/
def append (a b : Term) : Term := .binary .append a b

/-- `map f list`, a function applied to every item of a list. -/
def map (f list : Term) : Term := call "map" [f, list]

/-- `list_all pred list`: a predicate holds of every item of a list. -/
def listAll (pred list : Term) : Term := call "list_all" [pred, list]

/-- `f ∘ g`, the composition of two functions. -/
def composition (f g : Term) : Term := .binary .compose f g

/-- `fst`, the first component of a pair. -/
def fst : Term := .ident "fst"

/-- `snd`, the second component of a pair. -/
def snd : Term := .ident "snd"

end Warrant.Vocabulary
