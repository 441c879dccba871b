import Mathlib.Order.Bounds.Defs
import Warrant.Proofs.FreshBinders

/-!
# Binders and their types after substitution

Substitution gives a quantifier other binders but the same types, so it relies on there being as
many binders as before.  `subst?` is substitution with the check that `quantifier?` makes; it goes
through for every term whose quantifiers satisfied the check.

* `primed_isLeast`: the search for a new binder ends at the least positive number of primes that
  makes it unused.
* `substIn?_eq_some`: the check never fails below any binders.
* `fresh_binders_exact`: so a quantifier keeps the number of its binders, and that they are pairwise
  distinct.
-/

namespace Warrant

/-- The search of `primed` for a new binder ends at the least positive number of primes that makes
    the name `Unused`.  It has looked at no more candidates than there are names to avoid, and
    one. -/
theorem primed_isLeast (rangeFree binders chosen bodyFree : List Ident) (b : Ident) :
    ∃ n, primed (rangeFree ++ binders ++ chosen ++ bodyFree) b = withPrimes b n ∧
      IsLeast {m | 0 < m ∧ Unused rangeFree binders chosen bodyFree (withPrimes b m)} n ∧
      n ≤ rangeFree.length + binders.length + chosen.length + bodyFree.length + 1 := by
  obtain ⟨k, hres, hfree, hbelow⟩ := primed_spec (rangeFree ++ binders ++ chosen ++ bodyFree) b
  refine ⟨k + 1, hres, ⟨⟨Nat.succ_pos k, unused_iff_not_mem.2 (hres ▸ hfree)⟩, ?_⟩, ?_⟩
  · -- A smaller positive number belongs to a candidate that the search has passed.
    rintro m ⟨hpos, hunused⟩
    obtain ⟨j, rfl⟩ := Nat.exists_eq_succ_of_ne_zero (Nat.ne_of_gt hpos)
    refine Nat.succ_le_succ (Nat.le_of_not_lt fun hlt => ?_)
    exact unused_iff_not_mem.1 hunused (hbelow j hlt)
  · -- The candidates that it has passed differ from each other, and all of them are to be avoided.
    have hlen := le_length_of_candidates_mem
      (fun _ _ heq => Nat.succ.inj (withPrimes_injective b heq)) hbelow
    simp only [List.length_append] at hlen
    omega

namespace Term

/-! ## The check of quantifiers -/

/-- `quantifier?` accepts a quantifier exactly if its types, where given, are as many as its
    binders. -/
private theorem quantifier?_eq_some_iff {kind : Quant} {bound : List Ident}
    {types : Option (List Typ)} {body u : Term} :
    quantifier? kind bound types body = some u ↔
      (∀ ts ∈ types, ts.length = bound.length) ∧ .quant kind bound types body = u := by
  cases types with
  | none => simp [quantifier?]
  | some ts =>
    by_cases hlen : ts.length = bound.length <;> simp [quantifier?, hlen]

/-- Whether `quantifier?` accepts a quantifier hangs on the number of its binders only. -/
private theorem isSome_quantifier?_congr {kind : Quant} {bound bound' : List Ident}
    (hlen : bound'.length = bound.length) (types : Option (List Typ)) (body body' : Term) :
    (quantifier? kind bound' types body').isSome = (quantifier? kind bound types body).isSome := by
  rw [Bool.eq_iff_iff]
  simp only [Option.isSome_iff_exists, quantifier?_eq_some_iff, hlen, exists_eq_right']

/-- Every `Term.quant` of the term has a type for each of its binders, if it lists types.  The
    patterns of case splits, which substitution keeps as they are, need not. -/
inductive TypesFit : Term → Prop where
  | app {head : Term} {args : List Term} (hhead : TypesFit head) (hargs : ∀ a ∈ args, TypesFit a) :
    TypesFit (.app head args)
  | list {items : List Term} (hitems : ∀ a ∈ items, TypesFit a) : TypesFit (.list items)
  | set {items : List Term} (hitems : ∀ a ∈ items, TypesFit a) : TypesFit (.set items)
  | record {fields : List (Ident × Term)} (hfields : ∀ f ∈ fields, TypesFit f.2) :
      TypesFit (.record fields)
  | tuple {items : List Term} (hitems : ∀ a ∈ items, TypesFit a) : TypesFit (.tuple items)
  | ident {name : Ident} : TypesFit (.ident name)
  | nary {op : Op} {args : List Term} (hargs : ∀ a ∈ args, TypesFit a) : TypesFit (.nary op args)
  | quant {kind : Quant} {bound : List Ident} {types : Option (List Typ)} {body : Term}
    (htypes : ∀ ts ∈ types, ts.length = bound.length) (hbody : TypesFit body) :
    TypesFit (.quant kind bound types body)
  | caseOf {scrutinee : Term} {arms : List (Term × Term)} (hscrutinee : TypesFit scrutinee)
    (harms : ∀ a ∈ arms, TypesFit a.2) : TypesFit (.caseOf scrutinee arms)
  | typed {term : Term} {typ : Typ} (hterm : TypesFit term) : TypesFit (.typed term typ)
  | lit {value : Literal} : TypesFit (.lit value)

mutual
/-- `substIn` that makes each quantifier of the result by `quantifier?`.  One that does not change
    would not have to be made again; it is checked all the same. -/
def substIn? (σ : Assignment) (scope : List (Ident × Ident)) : Term → Option Term
  | .app head args => return .app (← head.substIn? σ scope) (← substList? σ scope args)
  | .list items => return .list (← substList? σ scope items)
  | .set items => return .set (← substList? σ scope items)
  | .record fields => return .record (← substFields? σ scope fields)
  | .tuple items => return .tuple (← substList? σ scope items)
  | .ident name => some ((Term.ident name).substIn σ scope)
  | .nary op args => return .nary op (← substList? σ scope args)
  | .quant kind bound types body => do
    let renamed := renameBinders σ.rangeFree bound body.free [] bound
    quantifier? kind (renamed.map Prod.snd) types (← body.substIn? σ (renamed.reverse ++ scope))
  | .caseOf scrutinee arms =>
    return .caseOf (← scrutinee.substIn? σ scope) (← substArms? σ scope arms)
  | .typed term typ => return .typed (← term.substIn? σ scope) typ
  | .lit value => some (.lit value)
/-- `substIn?` in each of several terms. -/
def substList? (σ : Assignment) (scope : List (Ident × Ident)) : List Term → Option (List Term)
  | [] => some []
  | t :: ts => return (← t.substIn? σ scope) :: (← substList? σ scope ts)
/-- `substIn?` in the values of a `Term.record`. -/
def substFields? (σ : Assignment) (scope : List (Ident × Ident)) :
    List (Ident × Term) → Option (List (Ident × Term))
  | [] => some []
  | (label, t) :: fields => return (label, ← t.substIn? σ scope) :: (← substFields? σ scope fields)
/-- `substIn?` in the results of case arms. -/
def substArms? (σ : Assignment) (scope : List (Ident × Ident)) :
    List (Term × Term) → Option (List (Term × Term))
  | [] => some []
  | (pattern, t) :: arms =>
    return (pattern, ← t.substIn? σ (pattern.free.map (fun x => (x, x)) ++ scope)) ::
      (← substArms? σ scope arms)
end

/-- `Term.subst` that checks the number of types of every quantifier. -/
def subst? (σ : Assignment) (t : Term) : Option Term := t.substIn? σ []

section

variable {σ : Assignment} {scope : List (Ident × Ident)}

/-- `substList?` succeeds if `substIn?` does for each term. -/
private theorem substList?_eq_some {ts : List Term}
    (h : ∀ a ∈ ts, a.substIn? σ scope = some (a.substIn σ scope)) :
    substList? σ scope ts = some (substList σ scope ts) := by
  induction ts with
  | nil => rfl
  | cons a ts ih =>
    rw [substList?, h a List.mem_cons_self, ih fun b hb => h b (List.mem_cons_of_mem a hb)]
    rfl

/-- `substFields?` succeeds if `substIn?` does for each value. -/
private theorem substFields?_eq_some {fields : List (Ident × Term)}
    (h : ∀ f ∈ fields, f.2.substIn? σ scope = some (f.2.substIn σ scope)) :
    substFields? σ scope fields = some (substFields σ scope fields) := by
  induction fields with
  | nil => rfl
  | cons f fields ih =>
    rw [substFields?, h f List.mem_cons_self, ih fun g hg => h g (List.mem_cons_of_mem f hg)]
    rfl

/-- `substArms?` succeeds if `substIn?` does for each result. -/
private theorem substArms?_eq_some {arms : List (Term × Term)}
    (h : ∀ a ∈ arms, a.2.substIn? σ (a.1.free.map (fun x => (x, x)) ++ scope) =
      some (a.2.substIn σ (a.1.free.map (fun x => (x, x)) ++ scope))) :
    substArms? σ scope arms = some (substArms σ scope arms) := by
  induction arms with
  | nil => rfl
  | cons a arms ih =>
    rw [substArms?, h a List.mem_cons_self, ih fun b hb => h b (List.mem_cons_of_mem a hb)]
    rfl

end

/-- Below any binders `substIn?` succeeds for a term with `TypesFit`. -/
theorem substIn?_eq_some {t : Term} (h : t.TypesFit) (σ : Assignment)
    (scope : List (Ident × Ident)) : t.substIn? σ scope = some (t.substIn σ scope) := by
  -- The scope grows below quantifiers and in case arms, so the induction is for all scopes.
  induction h generalizing scope with
  | app _ _ ihHead ihArgs =>
    rw [substIn?, ihHead, substList?_eq_some fun a ha => ihArgs a ha scope]
    rfl
  | list _ ih | set _ ih | tuple _ ih | nary _ ih =>
    rw [substIn?, substList?_eq_some fun a ha => ih a ha scope]
    rfl
  | record _ ih =>
    rw [substIn?, substFields?_eq_some fun f hf => ih f hf scope]
    rfl
  | ident => rfl
  | quant htypes _ ih =>
    rw [substIn?, ih]
    -- The types are those from before, and there are as many new binders as old ones.
    refine quantifier?_eq_some_iff.2 ⟨fun ts hts => ?_, rfl⟩
    rw [htypes ts hts, List.length_map, length_renameBinders]
  | caseOf _ _ ihScrutinee ihArms =>
    rw [substIn?, ihScrutinee, substArms?_eq_some fun a ha => ihArms a ha _]
    rfl
  | typed _ ih =>
    rw [substIn?, ih]
    rfl
  | lit => rfl

/-! ## Substituted quantifiers -/

/-- Whatever names are to be avoided, the search of `primed` for a new binder ends, at the least
    positive number of primes that makes the name `Unused`.  So wherever `substIn` meets a
    quantifier, it keeps the number of binders and that they are pairwise distinct, and leaves one
    that is accepted if it was accepted before: for a term all of whose quantifiers were, no check
    fails. -/
theorem fresh_binders_exact :
    (∀ (rangeFree binders chosen bodyFree : List Ident) (b : Ident),
      ∃ n, primed (rangeFree ++ binders ++ chosen ++ bodyFree) b = withPrimes b n ∧
        IsLeast {m | 0 < m ∧ Unused rangeFree binders chosen bodyFree (withPrimes b m)} n ∧
        n ≤ rangeFree.length + binders.length + chosen.length + bodyFree.length + 1) ∧
    (∀ (σ : Assignment) (scope : List (Ident × Ident)) (kind : Quant) (bound : List Ident)
        (types : Option (List Typ)) (body : Term),
      ∃ bound' body',
        (Term.quant kind bound types body).substIn σ scope = .quant kind bound' types body' ∧
        bound'.length = bound.length ∧ (bound.Nodup → bound'.Nodup) ∧
        (quantifier? kind bound' types body').isSome = (quantifier? kind bound types body).isSome) ∧
    ∀ (σ : Assignment) (t : Term), t.TypesFit → t.subst? σ = some (t.subst σ) := by
  refine ⟨primed_isLeast, fun σ scope kind bound types body => ?_,
    fun σ t h => substIn?_eq_some h σ []⟩
  let renamed := renameBinders σ.rangeFree bound body.free [] bound
  have hlen : (renamed.map Prod.snd).length = bound.length := by
    rw [List.length_map, length_renameBinders]
  refine ⟨renamed.map Prod.snd, _, rfl, hlen, fun hnodup => ?_,
    isSome_quantifier?_congr hlen types _ _⟩
  -- Only two binders that are both kept could end up with one name, and those differ already.
  exact (nodup_renameBinders_iff fun _ hb => hb).2 (hnodup.filter _)

/-- Replaces `z` by a term in which two binders of `overlapping` are free. -/
def zByCall : Assignment := Table.empty.insert "z" (.call "f" [.ident "x", .ident "y"])

/-- A quantifier over typed identifiers, one of which is another with a prime. -/
def overlapping : Term :=
  .quant .metaAll ["x", "x'", "y"] (some [.int, .int, .bool])
    (.call "p" [.ident "x", .ident "x'", .ident "y", .ident "z"])

/-- In `overlapping` the first binder cannot take the second one's name, and the third gets one
    prime. -/
theorem fresh_binders_overlapping :
    (overlapping.TypesFit ∧ ["x", "x'", "y"].Nodup) ∧
      overlapping.subst? zByCall = some
        (.quant .metaAll ["x''", "x'", "y'"] (some [.int, .int, .bool])
        (.call "p" [.ident "x''", .ident "x'", .ident "y'", .call "f" [.ident "x", .ident "y"]])) ∧
      ["x''", "x'", "y'"].Nodup := by
  have hfit : overlapping.TypesFit := .quant (by simp) (.app .ident (by simp [TypesFit.ident]))
  have hdistinct : ["x", "x'", "y"].Nodup := by decide
  have hres : overlapping.subst zByCall =
      .quant .metaAll ["x''", "x'", "y'"] (some [.int, .int, .bool])
        (.call "p" [.ident "x''", .ident "x'", .ident "y'",
          .call "f" [.ident "x", .ident "y"]]) := by
    decide +kernel
  obtain ⟨_, hquant, hcheck⟩ := fresh_binders_exact
  obtain ⟨bound', body', heq, _, hnodup, _⟩ := hquant zByCall [] .metaAll ["x", "x'", "y"]
    (some [.int, .int, .bool]) (.call "p" [.ident "x", .ident "x'", .ident "y", .ident "z"])
  have hbound : bound' = ["x''", "x'", "y'"] := (Term.quant.inj (heq.symm.trans hres)).2.1
  exact ⟨⟨hfit, hdistinct⟩, (hcheck zByCall overlapping hfit).trans (congrArg some hres),
    hbound ▸ hnodup hdistinct⟩

end Term

end Warrant
