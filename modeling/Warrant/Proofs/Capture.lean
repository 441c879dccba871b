import Mathlib.Data.List.TakeWhile
import Warrant.Proofs.Denotation
import Warrant.Proofs.FreshBinders

/-!
# When substitution captures

Substitution renames a quantifier's binder that occurs free in a replacement.  The new name avoids
the free identifiers of the body, but not the binders further in.  So an occurrence of the renamed
binder that lies below a binder with the same name in the result is captured there.

A `Place` is an occurrence of an identifier with the binders around it, as substitution meets them.
What the scopes of all places have in common is `ScopeInv`: no binder has a name in the result that
is free in a replacement, and no identifier that keeps its name comes below a binder that takes it.

* `ScopeInv.of_mem_places`: the invariant holds at every place of a term whose patterns avoid the
  replacements.
* `ScopeInv.boundAlike_iff`: so a place is bound by what bound it before exactly if it is not
  captured.
-/

namespace Warrant

/-! ## Places -/

/-- An occurrence of an identifier below binders, the innermost first, each with its name in the
    result. -/
structure Place where
  scope : List (Ident × Ident)
  name : Ident
  deriving DecidableEq, Repr

/-- The binders of `scope` further in than the one that binds `x`; all of them, if none does. -/
def innerBinders (scope : List (Ident × Ident)) (x : Ident) : List (Ident × Ident) :=
  scope.takeWhile (·.1 ≠ x)

namespace Place

/-- The occurrence is captured: its binder gets another name, and so is called one of the
    `innerBinders`. -/
def captured (p : Place) : Bool :=
  match p.scope.lookup p.name with
  | some y => y ≠ p.name && y ∈ (innerBinders p.scope p.name).map Prod.snd
  | none => false

/-- What binds the occurrence also binds the name that stands there in the result. -/
def boundAlike (p : Place) : Prop :=
  ∀ y, p.scope.lookup p.name = some y →
    (p.scope.map Prod.snd).idxOf? y = (p.scope.map Prod.fst).idxOf? p.name

end Place

namespace Term

mutual
/-- The places of a term that `substIn` visits below the binders in `scope`. -/
def places (σ : Assignment) (scope : List (Ident × Ident)) : Term → List Place
  | .app head args => head.places σ scope ++ placesList σ scope args
  | .list items => placesList σ scope items
  | .set items => placesList σ scope items
  | .record fields => placesFields σ scope fields
  | .tuple items => placesList σ scope items
  | .ident name => [⟨scope, name⟩]
  | .nary _ args => placesList σ scope args
  | .quant _ bound _ body =>
    body.places σ ((renameBinders σ.rangeFree bound body.free [] bound).reverse ++ scope)
  | .caseOf scrutinee arms => scrutinee.places σ scope ++ placesArms σ scope arms
  | .typed term _ => term.places σ scope
  | .lit _ => []
/-- The `places` of several terms. -/
def placesList (σ : Assignment) (scope : List (Ident × Ident)) : List Term → List Place
  | [] => []
  | t :: ts => t.places σ scope ++ placesList σ scope ts
/-- The `places` of the values of a `Term.record`. -/
def placesFields (σ : Assignment) (scope : List (Ident × Ident)) : List (Ident × Term) → List Place
  | [] => []
  | (_, t) :: fields => t.places σ scope ++ placesFields σ scope fields
/-- The `places` of the results of case arms, below the identifiers of the patterns. -/
def placesArms (σ : Assignment) (scope : List (Ident × Ident)) : List (Term × Term) → List Place
  | [] => []
  | (pattern, t) :: arms =>
    t.places σ (pattern.free.map (fun x => (x, x)) ++ scope) ++ placesArms σ scope arms
end

mutual
/-- The identifiers of all case patterns of a term, those of `Term.caseOf`. -/
def patternIdents : Term → List Ident
  | .app head args => head.patternIdents ++ patternIdentsList args
  | .list items => patternIdentsList items
  | .set items => patternIdentsList items
  | .record fields => patternIdentsFields fields
  | .tuple items => patternIdentsList items
  | .ident _ => []
  | .nary _ args => patternIdentsList args
  | .quant _ _ _ body => body.patternIdents
  | .caseOf scrutinee arms => scrutinee.patternIdents ++ patternIdentsArms arms
  | .typed term _ => term.patternIdents
  | .lit _ => []
/-- The `patternIdents` of several terms. -/
def patternIdentsList : List Term → List Ident
  | [] => []
  | t :: ts => t.patternIdents ++ patternIdentsList ts
/-- The `patternIdents` of the values of a `Term.record`. -/
def patternIdentsFields : List (Ident × Term) → List Ident
  | [] => []
  | (_, t) :: fields => t.patternIdents ++ patternIdentsFields fields
/-- The identifiers of the patterns of case arms and the `patternIdents` of their results. -/
def patternIdentsArms : List (Term × Term) → List Ident
  | [] => []
  | (pattern, t) :: arms => pattern.free ++ t.patternIdents ++ patternIdentsArms arms
end

/-- `placesList` is a `List.flatMap`. -/
theorem placesList_eq_flatMap (σ : Assignment) (scope : List (Ident × Ident)) (ts : List Term) :
    placesList σ scope ts = ts.flatMap (places σ scope) := by
  induction ts with
  | nil => rfl
  | cons t ts ih => exact congrArg (t.places σ scope ++ ·) ih

/-- `placesFields` is a `List.flatMap`. -/
theorem placesFields_eq_flatMap (σ : Assignment) (scope : List (Ident × Ident))
    (fields : List (Ident × Term)) :
    placesFields σ scope fields = fields.flatMap fun f => f.2.places σ scope := by
  induction fields with
  | nil => rfl
  | cons f fields ih => exact congrArg (f.2.places σ scope ++ ·) ih

/-- `placesArms` is a `List.flatMap`. -/
theorem placesArms_eq_flatMap (σ : Assignment) (scope : List (Ident × Ident))
    (arms : List (Term × Term)) :
    placesArms σ scope arms =
      arms.flatMap fun a => a.2.places σ (a.1.free.map (fun x => (x, x)) ++ scope) := by
  induction arms with
  | nil => rfl
  | cons a arms ih =>
    exact congrArg (a.2.places σ (a.1.free.map (fun x => (x, x)) ++ scope) ++ ·) ih

/-- `patternIdentsList` is a `List.flatMap`. -/
private theorem patternIdentsList_eq_flatMap (ts : List Term) :
    patternIdentsList ts = ts.flatMap patternIdents := by
  induction ts with
  | nil => rfl
  | cons t ts ih => exact congrArg (t.patternIdents ++ ·) ih

/-- `patternIdentsFields` is a `List.flatMap`. -/
private theorem patternIdentsFields_eq_flatMap (fields : List (Ident × Term)) :
    patternIdentsFields fields = fields.flatMap fun f => f.2.patternIdents := by
  induction fields with
  | nil => rfl
  | cons f fields ih => exact congrArg (f.2.patternIdents ++ ·) ih

/-- `patternIdentsArms` is a `List.flatMap`. -/
private theorem patternIdentsArms_eq_flatMap (arms : List (Term × Term)) :
    patternIdentsArms arms = arms.flatMap fun a => a.1.free ++ a.2.patternIdents := by
  induction arms with
  | nil => rfl
  | cons a arms ih => exact congrArg (a.1.free ++ a.2.patternIdents ++ ·) ih

end Term

/-! ## Looking names up in a scope -/

/-- A binder and its name in the result are at the same position of the scope unless one of the
    `innerBinders` has that name too. -/
private theorem idxOf?_eq_iff_not_mem_innerBinders {scope : List (Ident × Ident)} {x y : Ident}
    (h : scope.lookup x = some y) :
    (scope.map Prod.snd).idxOf? y = (scope.map Prod.fst).idxOf? x ↔
      y ∉ (innerBinders scope x).map Prod.snd := by
  induction scope with
  | nil => cases h
  | cons p scope ih =>
    obtain ⟨a, b⟩ := p
    rw [List.lookup_cons] at h
    rw [List.map_cons, List.map_cons, List.idxOf?_cons, List.idxOf?_cons]
    by_cases ha : x = a
    · -- The binder itself: nothing is further in.
      subst ha
      rw [beq_self_eq_true] at h
      obtain rfl : b = y := Option.some.inj h
      simp [innerBinders]
    · have hxa : (x == a) = false := by simpa using ha
      have hax : (a == x) = false := by simpa using Ne.symm ha
      rw [hxa] at h
      have hinner : innerBinders ((a, b) :: scope) x = (a, b) :: innerBinders scope x := by
        simp [innerBinders, Ne.symm ha]
      rw [hax, hinner, List.map_cons, List.mem_cons, not_or]
      by_cases hb : b = y
      · subst hb
        cases (scope.map Prod.fst).idxOf? x <;> simp
      · have hby : (b == y) = false := by simpa using hb
        rw [hby, ← ih h]
        simp only [Bool.false_eq_true, if_false, Ne.symm hb, not_false_eq_true, true_and]
        exact Option.map_inj_right fun i j hij => Nat.succ.inj hij

/-- Without a binder for a name all binders are `innerBinders`. -/
theorem innerBinders_of_lookup_eq_none {scope : List (Ident × Ident)} {x : Ident}
    (h : scope.lookup x = none) : innerBinders scope x = scope := by
  rw [innerBinders, List.takeWhile_eq_self_iff]
  intro p hp
  have hne : p.1 ≠ x := fun heq => lookup_eq_none_iff_not_mem.1 h (heq ▸ List.mem_map_of_mem hp)
  simpa using hne

/-! ## The invariant of scopes -/

/-- What the scope around a term guarantees during `substIn`: no binder has a name in the result
    that is free in a replacement, and a free identifier of the term that is not renamed is not what
    a binder further in is called. -/
structure ScopeInv (σ : Assignment) (scope : List (Ident × Ident)) (t : Term) : Prop where
  fresh : ∀ p ∈ scope, p.2 ∉ σ.rangeFree
  kept : ∀ x ∈ t.free, (scope.lookup x).getD x = x → x ∉ (innerBinders scope x).map Prod.snd

namespace ScopeInv

variable {σ : Assignment} {scope : List (Ident × Ident)} {t : Term}

/-- `ScopeInv` holds with no binders around. -/
theorem nil : ScopeInv σ [] t where
  fresh p hp := absurd hp List.not_mem_nil
  kept x _ _ hm := by simp [innerBinders] at hm

/-- `ScopeInv` passes on to a part whose free identifiers are free in the whole. -/
theorem mono {u : Term} (h : ScopeInv σ scope t) (hsub : ∀ x ∈ u.free, x ∈ t.free) :
    ScopeInv σ scope u where
  fresh := h.fresh
  kept x hx := h.kept x (hsub x hx)

/-- `ScopeInv` below the binders `inner`.  Those that are not called like a free identifier of the
    term should not get its name either. -/
theorem append {inner : List (Ident × Ident)} (hscope : ∀ p ∈ scope, p.2 ∉ σ.rangeFree)
    (hinner : ∀ p ∈ inner, p.2 ∉ σ.rangeFree)
    (hne : ∀ x ∈ t.free, ∀ p ∈ inner, p.1 ≠ x → p.2 ≠ x)
    (hkept : ∀ x ∈ t.free, x ∉ inner.map Prod.fst → (scope.lookup x).getD x = x →
      x ∉ (innerBinders scope x).map Prod.snd) : ScopeInv σ (inner ++ scope) t where
  fresh p hp := (List.mem_append.1 hp).elim (hinner p) (hscope p)
  kept x hx hres hm := by
    obtain ⟨p, hp, hpx⟩ := List.mem_map.1 hm
    by_cases hbound : x ∈ inner.map Prod.fst
    · -- Bound further in: what is even further in belongs to the new binders.
      have hpinner : p ∈ inner ∧ p.1 ≠ x := by
        obtain ⟨q, hq, hqx⟩ := List.mem_map.1 hbound
        have hstop : ¬(inner.takeWhile (·.1 ≠ x)).length = inner.length := by
          intro hlen
          have hall := List.takeWhile_eq_self_iff.1
            ((List.takeWhile_prefix (l := inner) (·.1 ≠ x)).eq_of_length hlen) q hq
          simp [hqx] at hall
        rw [innerBinders, List.takeWhile_append, if_neg hstop] at hp
        exact ⟨(List.takeWhile_sublist _).subset hp, by simpa using List.mem_takeWhile_imp hp⟩
      exact hne x hx p hpinner.1 hpinner.2 hpx
    · -- Not bound by the new binders: they are all further in.
      have hpass : ∀ q ∈ inner, (decide (q.1 ≠ x)) = true := by
        intro q hq
        have hqx : q.1 ≠ x := fun heq => hbound (heq ▸ List.mem_map_of_mem hq)
        simpa using hqx
      rw [List.lookup_append, lookup_eq_none_iff_not_mem.2 hbound, Option.none_or] at hres
      rw [innerBinders, List.takeWhile_append_of_pos hpass] at hp
      rcases List.mem_append.1 hp with hp | hp
      · exact hne x hx p hp (by simpa using hpass p hp) hpx
      · exact hkept x hx hbound hres (List.mem_map.2 ⟨p, hp, hpx⟩)

/-- `ScopeInv` holds below a quantifier: its new names differ from what is free in the body. -/
theorem quant {kind : Quant} {bound : List Ident} {types : Option (List Typ)} {body : Term}
    (h : ScopeInv σ scope (.quant kind bound types body)) :
    ScopeInv σ ((renameBinders σ.rangeFree bound body.free [] bound).reverse ++ scope) body := by
  refine append h.fresh (fun p hp => renameBinders_not_mem_rangeFree (List.mem_reverse.1 hp)) ?_ ?_
  · -- A binder that is renamed avoids what is free in the body; the others keep their names.
    intro x hx p hp hne
    rcases renameBinders_cases (List.mem_reverse.1 hp) with ⟨heq, _⟩ | ⟨_, hnew⟩
    · exact heq ▸ hne
    · exact fun heq => hnew.body (heq ▸ hx)
  · intro x hx hbound
    rw [List.map_reverse, map_fst_renameBinders, List.mem_reverse] at hbound
    exact h.kept x (Term.mem_free_quant.2 ⟨hx, hbound⟩)

/-- `ScopeInv` holds in a case arm whose pattern has no identifier that is free in a replacement. -/
theorem arm {scrutinee : Term} {arms : List (Term × Term)} {a : Term × Term}
    (h : ScopeInv σ scope (.caseOf scrutinee arms)) (ha : a ∈ arms)
    (hpat : ∀ x ∈ a.1.free, x ∉ σ.rangeFree) :
    ScopeInv σ (a.1.free.map (fun x => (x, x)) ++ scope) a.2 := by
  refine append h.fresh ?_ ?_ ?_
  · intro p hp
    obtain ⟨x, hx, rfl⟩ := List.mem_map.1 hp
    exact hpat x hx
  · intro x _ p hp hne
    obtain ⟨y, _, rfl⟩ := List.mem_map.1 hp
    exact hne
  · intro x hx hbound
    have hx' : x ∉ a.1.free := by simpa [List.map_map, Function.comp_def] using hbound
    exact h.kept x (Term.mem_free_caseOf.2 (.inr ⟨a, ha, hx, hx'⟩))

/-- At every place of a term the scope satisfies `ScopeInv` for the identifier there. -/
theorem of_mem_places (h : ScopeInv σ scope t) (hpat : ∀ x ∈ t.patternIdents, x ∉ σ.rangeFree)
    {p : Place} (hp : p ∈ t.places σ scope) : ScopeInv σ p.scope (.ident p.name) := by
  -- A part has no more free identifiers than the whole, unless it lies below binders.
  induction t using Term.induct generalizing scope with
  | app head args ihHead ihArgs =>
    rw [Term.places, Term.placesList_eq_flatMap, List.mem_append, List.mem_flatMap] at hp
    rw [Term.patternIdents, Term.patternIdentsList_eq_flatMap] at hpat
    rcases hp with hp | ⟨a, ha, hp⟩
    · exact ihHead (h.mono fun x hx => Term.mem_free_app.2 (.inl hx))
        (fun x hx => hpat x (List.mem_append_left _ hx)) hp
    · exact ihArgs a ha (h.mono fun x hx => Term.mem_free_app.2 (.inr ⟨a, ha, hx⟩))
        (fun x hx => hpat x (List.mem_append_right _ (List.mem_flatMap.2 ⟨a, ha, hx⟩))) hp
  | list items ih | set items ih | tuple items ih | nary op items ih =>
    rw [Term.places, Term.placesList_eq_flatMap, List.mem_flatMap] at hp
    rw [Term.patternIdents, Term.patternIdentsList_eq_flatMap] at hpat
    obtain ⟨a, ha, hp⟩ := hp
    exact ih a ha (h.mono fun x hx => by simpa using ⟨a, ha, hx⟩)
      (fun x hx => hpat x (List.mem_flatMap.2 ⟨a, ha, hx⟩)) hp
  | record fields ih =>
    rw [Term.places, Term.placesFields_eq_flatMap, List.mem_flatMap] at hp
    rw [Term.patternIdents, Term.patternIdentsFields_eq_flatMap] at hpat
    obtain ⟨f, hf, hp⟩ := hp
    exact ih f hf (h.mono fun x hx => Term.mem_free_record.2 ⟨f, hf, hx⟩)
      (fun x hx => hpat x (List.mem_flatMap.2 ⟨f, hf, hx⟩)) hp
  | ident name =>
    rw [Term.places, List.mem_singleton] at hp
    subst hp
    exact h
  | quant kind bound types body ih =>
    rw [Term.patternIdents] at hpat
    exact ih h.quant hpat hp
  | caseOf scrutinee arms ihScrutinee ihArms =>
    rw [Term.places, Term.placesArms_eq_flatMap, List.mem_append, List.mem_flatMap] at hp
    rw [Term.patternIdents, Term.patternIdentsArms_eq_flatMap] at hpat
    rcases hp with hp | ⟨a, ha, hp⟩
    · exact ihScrutinee (h.mono fun x hx => Term.mem_free_caseOf.2 (.inl hx))
        (fun x hx => hpat x (List.mem_append_left _ hx)) hp
    · have harm : ∀ x ∈ a.1.free ++ a.2.patternIdents, x ∉ σ.rangeFree := fun x hx =>
        hpat x (List.mem_append_right _ (List.mem_flatMap.2 ⟨a, ha, hx⟩))
      exact ihArms a ha (h.arm ha fun x hx => harm x (List.mem_append_left _ hx))
        (fun x hx => harm x (List.mem_append_right _ hx)) hp
  | typed term typ ih =>
    rw [Term.patternIdents] at hpat
    exact ih (h.mono fun x hx => Term.mem_free_typed.2 hx) hpat hp
  | lit value => cases hp

/-- Under `ScopeInv` an occurrence is bound by what bound it before, unless it is `captured`. -/
theorem boundAlike_iff {p : Place} (h : ScopeInv σ p.scope (.ident p.name)) :
    p.boundAlike ↔ p.captured = false := by
  unfold Place.boundAlike Place.captured
  cases hl : p.scope.lookup p.name with
  | none => simp
  | some y =>
    have hiff := idxOf?_eq_iff_not_mem_innerBinders hl
    -- A binder that keeps its name has no namesake further in, by the invariant.
    have hself : y = p.name → y ∉ (innerBinders p.scope p.name).map Prod.snd := by
      intro hy
      have hres : (p.scope.lookup p.name).getD p.name = p.name := by rw [hl]; exact hy
      rw [hy]
      exact h.kept p.name (Term.mem_free_ident.2 rfl) hres
    constructor
    · intro hbound
      have hout := hiff.1 (hbound y rfl)
      simp only [Bool.and_eq_false_iff, decide_eq_false_iff_not]
      exact .inr hout
    · intro hcap z hz
      obtain rfl : y = z := Option.some.inj hz
      rw [hiff]
      by_cases hy : y = p.name
      · exact hself hy
      · simpa [hy] using hcap

end ScopeInv

end Warrant
