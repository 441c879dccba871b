import Warrant.Logic.Term

/-! # Free identifiers

An identifier occurs free in a term where no quantifier and no case arm around it binds its name.  A
quantifier binds its identifiers in its body.  A case arm binds the identifiers of its pattern in
its result; patterns themselves, labels of records and types hold no occurrences.

A `Collector` goes through a term from left to right.  It has a stack of the identifiers that are
bound where it is, and it reports an identifier where it first meets it free.  `Term.free` is what
it has reported at the end.  `Term.occurrences` lists all free occurrences, from left to right and
with repetitions. -/

namespace Warrant

/-- Where `Collector.visit` is and what it has reported. -/
structure Collector where
  /-- The stack of bound identifiers, those of the innermost binder last. -/
  bound : List Ident := []
  /-- The set of the identifiers that were reported, the members of `found`. -/
  seen : Table Ident Unit := .empty
  /-- The identifiers that were reported, in the order in which they were met. -/
  found : List Ident := []

namespace Collector

/-- Go below a binder of `names`. -/
def enter (c : Collector) (names : List Ident) : Collector := { c with bound := c.bound ++ names }

/-- Go back to where `depth` identifiers were `bound`. -/
def leave (c : Collector) (depth : Nat) : Collector := { c with bound := c.bound.take depth }

/-- Meet the identifier `name`.  It is reported unless it is `bound` or was reported before. -/
def meet (c : Collector) (name : Ident) : Collector :=
  if name ∈ c.bound ∨ c.seen.contains name then c
  else { c with seen := c.seen.insert name (), found := c.found ++ [name] }

mutual
/-- Go through a term.  Another collector goes through the pattern of a case arm, and what it has
    `found` is what the arm binds. -/
def visit (c : Collector) : Term → Collector
  | .app head args => (c.visit head).visitList args
  | .list items => c.visitList items
  | .set items => c.visitList items
  | .record fields => c.visitFields fields
  | .tuple items => c.visitList items
  | .ident name => c.meet name
  | .nary _ args => c.visitList args
  | .quant _ names _ body => ((c.enter names).visit body).leave c.bound.length
  | .caseOf scrutinee arms => (c.visit scrutinee).visitArms arms
  | .typed term _ => c.visit term
  | .lit _ => c
termination_by structural t => t
/-- `visit` a list of terms. -/
def visitList (c : Collector) : List Term → Collector
  | [] => c
  | t :: ts => (c.visit t).visitList ts
termination_by structural ts => ts
/-- `visit` the values of a `Term.record`. -/
def visitFields (c : Collector) : List (Ident × Term) → Collector
  | [] => c
  | (_, t) :: fields => (c.visit t).visitFields fields
termination_by structural fields => fields
/-- `visit` the results of case arms, each below the identifiers of its pattern. -/
def visitArms (c : Collector) : List (Term × Term) → Collector
  | [] => c
  | (pattern, t) :: arms =>
    (((c.enter (visit {} pattern).found).visit t).leave c.bound.length).visitArms arms
termination_by structural arms => arms
end

end Collector

namespace Term

/-- The free identifiers of `t`, without repetition, in the order of their first occurrence. -/
def free (t : Term) : List Ident := (Collector.visit {} t).found

mutual
/-- The free occurrences of identifiers that are not in `bound`, from left to right. -/
def occurrences (bound : List Ident) : Term → List Ident
  | .app head args => head.occurrences bound ++ occurrencesList bound args
  | .list items => occurrencesList bound items
  | .set items => occurrencesList bound items
  | .record fields => occurrencesFields bound fields
  | .tuple items => occurrencesList bound items
  | .ident name => if name ∈ bound then [] else [name]
  | .nary _ args => occurrencesList bound args
  | .quant _ names _ body => body.occurrences (names ++ bound)
  | .caseOf scrutinee arms => scrutinee.occurrences bound ++ occurrencesArms bound arms
  | .typed term _ => term.occurrences bound
  | .lit _ => []
/-- The `occurrences` in a list of terms. -/
def occurrencesList (bound : List Ident) : List Term → List Ident
  | [] => []
  | t :: ts => t.occurrences bound ++ occurrencesList bound ts
/-- The `occurrences` in the values of a `Term.record`. -/
def occurrencesFields (bound : List Ident) : List (Ident × Term) → List Ident
  | [] => []
  | (_, t) :: fields => t.occurrences bound ++ occurrencesFields bound fields
/-- The `occurrences` in the results of case arms, each under the identifiers of its pattern. -/
def occurrencesArms (bound : List Ident) : List (Term × Term) → List Ident
  | [] => []
  | (pattern, t) :: arms =>
    t.occurrences (pattern.occurrences [] ++ bound) ++ occurrencesArms bound arms
end

end Term

end Warrant
