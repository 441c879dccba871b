import Warrant.Proofs.FreePlaces
import Warrant.Proofs.Substitution

/-!
# The free identifiers of a substituted term

An identifier is free in a term if some place has it and no binder around the place binds it.
Substitution puts a replacement at each such place, and what is free in the replacement is free in
the result, unless a binder around the place has the name.

* `mem_free_iff_place`: what is free in a term, by its places.
* `mem_free_substIn_iff`: what is free in the result, by the places of the term.
* `ScopeInv.not_mem_of_unbound`: no binder around an unbound place takes what comes there.
* `FreeAt.subterm?_substIn`: where an identifier is free in a term, what stands for it comes in the
  result.
* `mem_free_subst_iff`: all that stands for free identifiers comes through where patterns avoid the
  replacements.
* `free_subst_exact`: the free identifiers of the result are those of the replacements and those
  without one.
-/

namespace Warrant

/-- What stands for an identifier that is not bound: its replacement in `σ` if it has one, else
    itself. -/
def Assignment.image (σ : Assignment) (x : Ident) : Term := (σ.get? x).getD (.ident x)

/-- No binder around the place binds the identifier there. -/
def Place.Unbound (p : Place) : Prop := p.name ∉ p.scope.map Prod.fst

/-- The identifiers that are free in `t` and have no replacement, and those that are free in the
    replacement of an identifier that is free in `t`. -/
def Assignment.LeavesFree (σ : Assignment) (t : Term) (y : Ident) : Prop :=
  (y ∈ t.free ∧ σ.get? y = none) ∨ ∃ x r, x ∈ t.free ∧ σ.get? x = some r ∧ y ∈ r.free

variable {σ : Assignment} {scope : List (Ident × Ident)} {x y : Ident}

/-- `LeavesFree` is what is free in the `image` of a free identifier. -/
private theorem Assignment.leavesFree_iff {t : Term} :
    σ.LeavesFree t y ↔ ∃ x ∈ t.free, y ∈ (σ.image x).free := by
  constructor
  · rintro (⟨hy, hnone⟩ | ⟨x, r, hx, hr, hy⟩)
    · refine ⟨y, hy, ?_⟩
      rw [Assignment.image, hnone]
      exact Term.mem_free_ident.2 rfl
    · refine ⟨x, hx, ?_⟩
      rw [Assignment.image, hr]
      exact hy
  · rintro ⟨x, hx, hy⟩
    rw [Assignment.image] at hy
    -- The `image` is the identifier itself or its replacement.
    cases hr : σ.get? x with
    | none =>
      rw [hr] at hy
      obtain rfl := Term.mem_free_ident.1 hy
      exact .inl ⟨hx, hr⟩
    | some r =>
      rw [hr] at hy
      exact .inr ⟨x, r, hx, hr, hy⟩

namespace Term

/-! ## Places -/

/-- What some part has is what some place of a part has, if this holds for each part. -/
private theorem exists_and_iff_place {α : Type} {parts : List α} {has : α → Prop}
    {places : α → List Place} {Q : Prop} {holds : Place → Prop}
    (h : ∀ a ∈ parts, has a ∧ Q ↔ ∃ p ∈ places a, holds p) :
    (∃ a ∈ parts, has a) ∧ Q ↔ ∃ p ∈ parts.flatMap places, holds p := by
  simp only [List.mem_flatMap]
  constructor
  · rintro ⟨⟨a, ha, hhas⟩, hQ⟩
    obtain ⟨p, hp, hat⟩ := (h a ha).1 ⟨hhas, hQ⟩
    exact ⟨p, ⟨a, ha, hp⟩, hat⟩
  · rintro ⟨p, ⟨a, ha, hp⟩, hat⟩
    obtain ⟨hhas, hQ⟩ := (h a ha).2 ⟨p, hp, hat⟩
    exact ⟨⟨a, ha, hhas⟩, hQ⟩

/-- `exists_and_iff_place` for a first part and the others. -/
private theorem or_and_iff_place {A B Q : Prop} {first others : List Place} {holds : Place → Prop}
    (hfirst : A ∧ Q ↔ ∃ p ∈ first, holds p) (hothers : B ∧ Q ↔ ∃ p ∈ others, holds p) :
    (A ∨ B) ∧ Q ↔ ∃ p ∈ first ++ others, holds p := by
  simp only [List.mem_append, or_and_right, exists_or, hfirst, hothers]

/-- An identifier is `free`, also with regard to the binders in `scope`, exactly if it stands at an
    `Unbound` place. -/
theorem mem_free_iff_place (σ : Assignment) (t : Term) (scope : List (Ident × Ident)) :
    x ∈ t.free ∧ x ∉ scope.map Prod.fst ↔ ∃ p ∈ t.places σ scope, p.Unbound ∧ p.name = x := by
  induction t using induct generalizing scope with
  | app head args ihHead ihArgs =>
    rw [mem_free_app, places, placesList_eq_flatMap]
    exact or_and_iff_place (ihHead scope) (exists_and_iff_place fun a ha => ihArgs a ha scope)
  | list items ih | set items ih | tuple items ih | nary op items ih =>
    simp only [mem_free_list, mem_free_set, mem_free_tuple, mem_free_nary, places,
      placesList_eq_flatMap]
    exact exists_and_iff_place fun a ha => ih a ha scope
  | record fields ih =>
    rw [mem_free_record, places, placesFields_eq_flatMap]
    exact exists_and_iff_place fun f hf => ih f hf scope
  | ident name =>
    simp only [mem_free_ident, places, List.mem_singleton, exists_eq_left, Place.Unbound]
    constructor
    · rintro ⟨rfl, hx⟩
      exact ⟨hx, rfl⟩
    · rintro ⟨hx, rfl⟩
      exact ⟨rfl, hx⟩
  | quant kind bound types body ih =>
    -- The binders of the quantifier are in the scope under the names that they had.
    rw [mem_free_quant, places, ← ih, map_fst_renamed_append, List.mem_append, List.mem_reverse,
      not_or, and_assoc]
  | caseOf scrutinee arms ihScrutinee ihArms =>
    rw [mem_free_caseOf, places, placesArms_eq_flatMap]
    refine or_and_iff_place (ihScrutinee scope) (exists_and_iff_place fun a ha => ?_)
    rw [← ihArms a ha, (map_pattern_append _ _).1, List.mem_append, not_or, and_assoc]
  | typed term typ ih => exact (and_congr_left' mem_free_typed).trans (ih scope)
  | lit value => simp [places]

/-- What is free in `substList` is free in a substituted term. -/
private theorem exists_mem_substList {ts : List Term} :
    (∃ a ∈ substList σ scope ts, y ∈ a.free) ↔ ∃ a ∈ ts, y ∈ (a.substIn σ scope).free := by
  simp only [substList_eq_map, List.mem_map, exists_exists_and_eq_and]

/-- What is free in `substFields` is free in a substituted value. -/
private theorem exists_mem_substFields {fields : List (Ident × Term)} :
    (∃ f ∈ substFields σ scope fields, y ∈ f.2.free) ↔
      ∃ f ∈ fields, y ∈ (f.2.substIn σ scope).free := by
  simp only [substFields_eq_map, List.mem_map, exists_exists_and_eq_and]

/-- What is free in `substArms` is free in a substituted result, and no pattern binds it. -/
private theorem exists_mem_substArms {arms : List (Term × Term)} :
    (∃ a ∈ substArms σ scope arms, y ∈ a.2.free ∧ y ∉ a.1.free) ↔
      ∃ a ∈ arms, y ∈ (a.2.substIn σ (a.1.free.map (fun x => (x, x)) ++ scope)).free ∧
        y ∉ a.1.free := by
  simp only [substArms_eq_map, List.mem_map, exists_exists_and_eq_and]

/-- An identifier is free after `substIn`, also with regard to what the binders in `scope` are
    called there, exactly if it is free in what comes to an `Unbound` place and no binder around the
    place is called so. -/
theorem mem_free_substIn_iff (σ : Assignment) (t : Term) (scope : List (Ident × Ident)) :
    y ∈ (t.substIn σ scope).free ∧ y ∉ scope.map Prod.snd ↔
      ∃ p ∈ t.places σ scope, p.Unbound ∧ y ∈ (σ.image p.name).free ∧ y ∉ p.scope.map Prod.snd := by
  induction t using induct generalizing scope with
  | app head args ihHead ihArgs =>
    rw [substIn, mem_free_app, exists_mem_substList, places, placesList_eq_flatMap]
    exact or_and_iff_place (ihHead scope) (exists_and_iff_place fun a ha => ihArgs a ha scope)
  | list items ih | set items ih | tuple items ih | nary op items ih =>
    simp only [substIn, mem_free_list, mem_free_set, mem_free_tuple, mem_free_nary,
      exists_mem_substList, places, placesList_eq_flatMap]
    exact exists_and_iff_place fun a ha => ih a ha scope
  | record fields ih =>
    rw [substIn, mem_free_record, exists_mem_substFields, places, placesFields_eq_flatMap]
    exact exists_and_iff_place fun f hf => ih f hf scope
  | ident name =>
    simp only [substIn, places, List.mem_singleton, exists_eq_left, Place.Unbound]
    cases hl : scope.lookup name with
    | none =>
      rw [and_iff_right (lookup_eq_none_iff_not_mem.1 hl)]
      rfl
    | some new =>
      -- The identifier is bound, and so is what it is called in the result.
      have hmem := mem_of_lookup_eq_some hl
      have hnew : new ∈ scope.map Prod.snd := List.mem_map_of_mem hmem
      have hname : name ∈ scope.map Prod.fst := List.mem_map_of_mem hmem
      refine iff_of_false ?_ fun h => h.1 hname
      rintro ⟨hy, hout⟩
      obtain rfl := mem_free_ident.1 hy
      exact hout hnew
  | quant kind bound types body ih =>
    rw [substIn, mem_free_quant, places, ← ih, map_snd_renamed_append, List.mem_append,
      List.mem_reverse, not_or, and_assoc]
  | caseOf scrutinee arms ihScrutinee ihArms =>
    rw [substIn, mem_free_caseOf, exists_mem_substArms, places, placesArms_eq_flatMap]
    refine or_and_iff_place (ihScrutinee scope) (exists_and_iff_place fun a ha => ?_)
    rw [← ihArms a ha, (map_pattern_append _ _).2, List.mem_append, not_or, and_assoc]
  | typed term typ ih => exact (and_congr_left' mem_free_typed).trans (ih scope)
  | lit value => simp [substIn, places]

/-! ## Substitution at a path -/

/-- One of the `parts` of a term, substituted, is that part of the substituted term.  An identifier
    that is bound neither there nor in `scope` is not bound in the scope of the part. -/
private theorem exists_part_substIn {t u : Term} {i : Nat} {bound : List Ident}
    (h : t.parts[i]? = some (bound, u)) (hx : x ∉ bound) (hscope : x ∉ scope.map Prod.fst) :
    ∃ bound' scope', (t.substIn σ scope).parts[i]? = some (bound', u.substIn σ scope') ∧
      x ∉ scope'.map Prod.fst := by
  cases t with
  | ident name | lit value => cases h
  | app head args =>
    -- A head and arguments are substituted in the same scope.
    refine ⟨[], scope, ?_, hscope⟩
    cases i with
    | zero =>
      obtain ⟨-, rfl⟩ := Prod.mk.inj (Option.some.inj h)
      rfl
    | succ i =>
      simp only [parts, List.getElem?_cons_succ, List.getElem?_map, Option.map_eq_some_iff,
        Prod.mk.injEq] at h
      obtain ⟨a, ha, rfl, rfl⟩ := h
      simp [substIn, parts, substList_eq_map, ha]
  | list items | set items | tuple items | nary op items =>
    simp only [parts, List.getElem?_map, Option.map_eq_some_iff, Prod.mk.injEq] at h
    obtain ⟨a, ha, rfl, rfl⟩ := h
    exact ⟨[], scope, by simp [substIn, parts, substList_eq_map, ha], hscope⟩
  | record fields =>
    simp only [parts, List.getElem?_map, Option.map_eq_some_iff, Prod.mk.injEq] at h
    obtain ⟨a, ha, rfl, rfl⟩ := h
    exact ⟨[], scope, by simp [substIn, parts, substFields_eq_map, ha], hscope⟩
  | quant kind binders types body =>
    -- Below a quantifier the scope has the binders too, under their old names.
    cases i with
    | succ i => cases h
    | zero =>
      obtain ⟨rfl, rfl⟩ := Prod.mk.inj (Option.some.inj h)
      refine ⟨_, _, rfl, ?_⟩
      rw [map_fst_renamed_append, List.mem_append, List.mem_reverse, not_or]
      exact ⟨hx, hscope⟩
  | caseOf scrutinee arms =>
    cases i with
    | zero =>
      obtain ⟨-, rfl⟩ := Prod.mk.inj (Option.some.inj h)
      exact ⟨[], scope, rfl, hscope⟩
    | succ i =>
      simp only [parts, List.getElem?_cons_succ, List.getElem?_map, Option.map_eq_some_iff,
        Prod.mk.injEq] at h
      obtain ⟨arm, harm, rfl, rfl⟩ := h
      -- In an arm it has the identifiers of the pattern.
      refine ⟨arm.1.occurrences [], arm.1.free.map (fun x => (x, x)) ++ scope, ?_, ?_⟩
      · simp [substIn, parts, substArms_eq_map, harm]
      · rw [(map_pattern_append _ _).1, List.mem_append, not_or]
        exact ⟨fun hfree => hx ((mem_free x arm.1).1 hfree), hscope⟩
  | typed term typ =>
    cases i with
    | succ i => cases h
    | zero =>
      obtain ⟨-, rfl⟩ := Prod.mk.inj (Option.some.inj h)
      exact ⟨[], scope, rfl, hscope⟩

/-- At the end of a path where an identifier is `FreeAt`, the substituted term has what stands for
    the identifier. -/
theorem FreeAt.subterm?_substIn {t : Term} {path : List Nat} (h : t.FreeAt x path)
    (hscope : x ∉ scope.map Prod.fst) : subterm? path (t.substIn σ scope) = some (σ.image x) := by
  induction h generalizing scope with
  | here =>
    rw [subterm?, substIn, lookup_eq_none_iff_not_mem.2 hscope]
    rfl
  | part hpart hx _ ih =>
    -- One step down: the same part of the substituted term, with its binders in the scope.
    obtain ⟨bound', scope', hpart', hscope'⟩ :=
      @exists_part_substIn σ scope _ _ _ _ _ hpart hx hscope
    rw [subterm?, hpart']
    exact ih hscope'

/-! ## The whole term -/

/-- `mem_free_substIn_iff` for a whole term. -/
private theorem mem_free_subst_iff_place (σ : Assignment) (t : Term) :
    y ∈ (t.subst σ).free ↔
      ∃ p ∈ t.places σ [], p.Unbound ∧ y ∈ (σ.image p.name).free ∧ y ∉ p.scope.map Prod.snd :=
  (and_iff_left List.not_mem_nil).symm.trans (mem_free_substIn_iff σ t [])

/-- `mem_free_iff_place` for a whole term. -/
theorem mem_free_iff_unbound (σ : Assignment) (t : Term) :
    x ∈ t.free ↔ ∃ p ∈ t.places σ [], p.Unbound ∧ p.name = x :=
  (and_iff_left List.not_mem_nil).symm.trans (mem_free_iff_place σ t [])

end Term

/-- No binder around an `Unbound` place is called like an identifier that is free in what comes
    there. -/
theorem ScopeInv.not_mem_of_unbound {p : Place} (h : ScopeInv σ p.scope (.ident p.name))
    (hp : p.Unbound) (hy : y ∈ (σ.image p.name).free) : y ∉ p.scope.map Prod.snd := by
  have hl : p.scope.lookup p.name = none := lookup_eq_none_iff_not_mem.2 hp
  rw [Assignment.image] at hy
  cases hr : σ.get? p.name with
  | none =>
    -- The identifier stays, and the invariant says that it meets no binder of its name.
    rw [hr] at hy
    obtain rfl := Term.mem_free_ident.1 hy
    have hkept := h.kept p.name (Term.mem_free_ident.2 rfl) (by rw [hl]; rfl)
    rwa [innerBinders_of_lookup_eq_none hl] at hkept
  | some r =>
    rw [hr] at hy
    intro hm
    obtain ⟨q, hq, rfl⟩ := List.mem_map.1 hm
    exact h.fresh q hq (Assignment.mem_rangeFree hr hy)

namespace Term

/-- What is free after `subst` comes from the `image` of a free identifier. -/
theorem exists_of_mem_free_subst {t : Term} (hy : y ∈ (t.subst σ).free) :
    ∃ x ∈ t.free, y ∈ (σ.image x).free := by
  obtain ⟨p, hp, hunbound, hy, -⟩ := (mem_free_subst_iff_place σ t).1 hy
  exact ⟨p.name, (mem_free_iff_unbound σ t).2 ⟨p, hp, hunbound, rfl⟩, hy⟩

/-- Where `patternIdents` avoid the replacements, the `image` of every free identifier comes
    through. -/
theorem mem_free_subst_iff {t : Term} (hpat : ∀ x ∈ t.patternIdents, x ∉ σ.rangeFree) :
    y ∈ (t.subst σ).free ↔ ∃ x ∈ t.free, y ∈ (σ.image x).free := by
  refine ⟨exists_of_mem_free_subst, ?_⟩
  rintro ⟨x, hx, hy⟩
  obtain ⟨p, hp, hunbound, rfl⟩ := (mem_free_iff_unbound σ t).1 hx
  have hinv : ScopeInv σ p.scope (.ident p.name) := ScopeInv.nil.of_mem_places hpat hp
  exact (mem_free_subst_iff_place σ t).2 ⟨p, hp, hunbound, hy, hinv.not_mem_of_unbound hunbound hy⟩

/-- What is free after `subst` is free in the term and has no replacement, or is free in the
    replacement of an identifier that is free in the term (`LeavesFree`).  If no identifier of a
    case pattern is free in a replacement, all of these are free after it. -/
theorem free_subst_exact (σ : Assignment) (t : Term) :
    (∀ y ∈ (t.subst σ).free, σ.LeavesFree t y) ∧
      ((∀ x ∈ t.patternIdents, x ∉ σ.rangeFree) →
        ∀ y, y ∈ (t.subst σ).free ↔ σ.LeavesFree t y) := by
  constructor
  · intro y hy
    exact Assignment.leavesFree_iff.2 (exists_of_mem_free_subst hy)
  · intro hpat y
    rw [mem_free_subst_iff hpat, Assignment.leavesFree_iff]

/-- In `splitBelowX` the replacement of `y` is free below the renamed quantifier, beside the
    pattern. -/
theorem free_subst_exact_splitBelowX :
    (∀ x ∈ splitBelowX.patternIdents, x ∉ yByX.rangeFree) ∧ splitBelowX.free = ["y"] ∧
      (splitBelowX.subst yByX).free = ["x"] ∧
      ∀ y, y ∈ (splitBelowX.subst yByX).free ↔ yByX.LeavesFree splitBelowX y := by
  have hpat : ∀ x ∈ splitBelowX.patternIdents, x ∉ yByX.rangeFree := by decide
  exact ⟨hpat, by decide, by decide +kernel, (free_subst_exact yByX splitBelowX).2 hpat⟩

-- A pattern that has the identifier of a replacement takes it.
example : ((caseOf (.ident "s") [(.ident "x", .ident "y")]).subst yByX).free = ["s"] := by decide

end Term

end Warrant
