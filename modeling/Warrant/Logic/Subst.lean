import Warrant.Logic.Free

/-! # Substitution of terms for identifiers

`Term.subst σ t` replaces the free identifiers of `t` that have an entry in `σ`, all at once.  A
quantifier that binds an identifier which occurs free in some replacement gets a fresh identifier in
its place: the name followed by primes, as many as it takes.  Patterns of case splits are kept as
they are, so their identifiers should not occur free in a replacement.

While it descends, the substitution carries the binders around the current position as pairs of a
bound name and the name that stands for it in the result, the innermost first. -/

namespace Warrant

/-- Replacements for identifiers, the `σ` of `Term.subst`. -/
abbrev Assignment := Table Ident Term

/-- The identifiers that occur free in a replacement of `σ`. -/
def Assignment.rangeFree (σ : Assignment) : List Ident := σ.values.flatMap Term.free

/-- The `taken` names that `primedFrom` can still come to: those that are no shorter than the
    candidate `name`. -/
def takenAhead (taken : List Ident) (name : Ident) : List Ident :=
  taken.filter fun other => name.length ≤ other.length

/-- A prime makes a name longer by one character. -/
theorem length_append_prime (name : Ident) : (name ++ "'").length = name.length + 1 := by
  rw [String.length_append]
  rfl

/-- With one more prime a candidate leaves the name that it was behind, so `takenAhead` shrinks. -/
private theorem length_takenAhead_lt {taken : List Ident} {name : Ident} (h : name ∈ taken) :
    (takenAhead taken (name ++ "'")).length < (takenAhead taken name).length := by
  have hahead : takenAhead taken (name ++ "'") =
      (takenAhead taken name).filter fun other => (name ++ "'").length ≤ other.length := by
    rw [takenAhead, takenAhead, List.filter_filter]
    refine List.filter_congr fun other _ => ?_
    rw [length_append_prime, ← Bool.decide_and]
    exact decide_eq_decide.2 (by omega)
  -- `name` itself is taken, and it is what the longer candidate leaves behind.
  rw [hahead, List.length_filter_lt_length_iff_exists]
  refine ⟨name, List.mem_filter.2 ⟨h, decide_eq_true (Nat.le_refl _)⟩, ?_⟩
  rw [length_append_prime, decide_eq_true_eq]
  exact Nat.not_succ_le_self _

/-- The first of `name`, `name'`, `name''`, … that is not in `taken`.  There is one, as each
    candidate that is taken leaves fewer names in `takenAhead`. -/
def primedFrom (taken : List Ident) (name : Ident) : Ident :=
  if name ∈ taken then primedFrom taken (name ++ "'") else name
termination_by (takenAhead taken name).length
decreasing_by exact length_takenAhead_lt ‹_›

/-- `name` followed by the least positive number of primes that makes it differ from all `taken`
    names. -/
def primed (taken : List Ident) (name : Ident) : Ident := primedFrom taken (name ++ "'")

/-- The identifiers that a quantifier binds after substitution, paired with those that it binds now.
    An identifier in `rangeFree` is `primed` until it differs from all of those, from the other
    binders, old (`binders`) and new (`chosen`), and from the free identifiers of the body. -/
def renameBinders (rangeFree binders bodyFree : List Ident) :
    (chosen : List Ident) → List Ident → List (Ident × Ident)
  | _, [] => []
  | chosen, b :: bs =>
    let new := if b ∈ rangeFree then primed (rangeFree ++ binders ++ chosen ++ bodyFree) b else b
    (b, new) :: renameBinders rangeFree binders bodyFree (chosen ++ [new]) bs

namespace Term

mutual
/-- Substitution below the binders in `scope`, the innermost of which come first. -/
def substIn (σ : Assignment) (scope : List (Ident × Ident)) : Term → Term
  | .app head args => .app (head.substIn σ scope) (substList σ scope args)
  | .list items => .list (substList σ scope items)
  | .set items => .set (substList σ scope items)
  | .record fields => .record (substFields σ scope fields)
  | .tuple items => .tuple (substList σ scope items)
  | .ident name =>
    match scope.lookup name with
    | some new => .ident new
    | none => (σ.get? name).getD (.ident name)
  | .nary op args => .nary op (substList σ scope args)
  | .quant kind bound types body =>
    let renamed := renameBinders σ.rangeFree bound body.free [] bound
    .quant kind (renamed.map Prod.snd) types (body.substIn σ (renamed.reverse ++ scope))
  | .caseOf scrutinee arms => .caseOf (scrutinee.substIn σ scope) (substArms σ scope arms)
  | .typed term typ => .typed (term.substIn σ scope) typ
  | .lit value => .lit value
/-- `substIn` in each of several terms. -/
def substList (σ : Assignment) (scope : List (Ident × Ident)) : List Term → List Term
  | [] => []
  | t :: ts => t.substIn σ scope :: substList σ scope ts
/-- `substIn` in the values of a `Term.record`; the labels stay. -/
def substFields (σ : Assignment) (scope : List (Ident × Ident)) :
    List (Ident × Term) → List (Ident × Term)
  | [] => []
  | (label, t) :: fields => (label, t.substIn σ scope) :: substFields σ scope fields
/-- `substIn` in the results of the arms of a `Term.caseOf`.  The identifiers of a pattern stand for
    themselves. -/
def substArms (σ : Assignment) (scope : List (Ident × Ident)) :
    List (Term × Term) → List (Term × Term)
  | [] => []
  | (pattern, t) :: arms =>
    (pattern, t.substIn σ (pattern.free.map (fun x => (x, x)) ++ scope)) ::
      substArms σ scope arms
end

/-- Replace the free identifiers of `t` that have an entry in `σ`. -/
def subst (σ : Assignment) (t : Term) : Term := t.substIn σ []

end Term

end Warrant
