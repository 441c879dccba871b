import Mathlib.Tactic.TFAE
import Warrant.Proofs.Capture
import Warrant.Proofs.Nameless

/-!
# What substitution does

Substitution should give a term the meaning that it has when the replaced identifiers denote their
replacements.  A captured place is the only thing that can go wrong: without one the result has that
meaning under every interpretation, equals the substituted term up to the names of quantifier
binders, and every bound occurrence keeps its binder; with one all of these fail.

* `denote_substIn`: the result has the right meaning if every place is bound alike.
* `boundAlike_of_nameless_eq`: every place is bound alike if the result has the right nameless form.
* `nameless_subst_of_denote`: it has that form if it has the right meaning under every
  interpretation.
-/

namespace Warrant

variable {D : Type} {σ : Assignment}

/-- What is free in a replacement is in `rangeFree`. -/
theorem Assignment.mem_rangeFree {r : Term} {x y : Ident} (hr : σ.get? x = some r)
    (hy : y ∈ r.free) : y ∈ σ.rangeFree := by
  have hmem : (x, r) ∈ σ.entries := (Table.get?_eq_some_iff σ x r).1 hr
  exact List.mem_flatMap.2 ⟨r, List.mem_map.2 ⟨(x, r), hmem, rfl⟩, hy⟩

namespace Term

/-- The names of the binders around a quantifier's body in the result of `substIn`. -/
theorem map_snd_renamed_append (renamed scope : List (Ident × Ident)) :
    (renamed.reverse ++ scope).map Prod.snd =
      (renamed.map Prod.snd).reverse ++ scope.map Prod.snd := by
  rw [List.map_append, List.map_reverse]

/-- The names that a quantifier and the binders around it had before `renameBinders`. -/
theorem map_fst_renamed_append (rangeFree bound bodyFree : List Ident)
    (scope : List (Ident × Ident)) :
    ((renameBinders rangeFree bound bodyFree [] bound).reverse ++ scope).map Prod.fst =
      bound.reverse ++ scope.map Prod.fst := by
  rw [List.map_append, List.map_reverse, map_fst_renameBinders]

/-- The identifiers of a pattern are called the same in the result of `substIn`. -/
theorem map_pattern_append (names : List Ident) (scope : List (Ident × Ident)) :
    (names.map (fun x => (x, x)) ++ scope).map Prod.fst = names ++ scope.map Prod.fst ∧
      (names.map (fun x => (x, x)) ++ scope).map Prod.snd = names ++ scope.map Prod.snd := by
  simp [List.map_append, List.map_map, Function.comp_def]

/-! ## Meaning -/

/-- `substIn` for an identifier at a place that is `boundAlike` has the value of the identifier. -/
private theorem denote_substIn_ident (I : Interpretation D) (e : Env D)
    {scope : List (Ident × Ident)} {vals : List D} {name : Ident}
    (hlen : scope.length = vals.length) (hbound : Place.boundAlike ⟨scope, name⟩)
    (hinv : ScopeInv σ scope (.ident name)) :
    ((Term.ident name).substIn σ scope).denote I (e.under ((scope.map Prod.snd).zip vals)) =
      (σ.env I e).under ((scope.map Prod.fst).zip vals) name := by
  have hkeys (f : Ident × Ident → Ident) : ((scope.map f).zip vals).map Prod.fst = scope.map f :=
    List.map_fst_zip (by simp [hlen])
  rw [substIn]
  cases hl : scope.lookup name with
  | some y =>
    -- Both names are found at the same position, so they have the same value.
    have hmem : name ∈ scope.map Prod.fst := by
      by_contra hnot
      rw [lookup_eq_none_iff_not_mem.2 hnot] at hl
      cases hl
    obtain ⟨i, hi⟩ := Option.isSome_iff_exists.1 (List.isSome_idxOf?.2 hmem)
    have hilt : i < vals.length := by
      have := (List.idxOf?_eq_some_iff.1 hi).1
      simpa [hlen] using this
    show e.under _ y = _
    rw [Env.under, Env.under, lookup_zip, lookup_zip, hbound y hl, hi, Option.bind_some,
      List.getElem?_eq_getElem hilt]
    rfl
  | none =>
    have hfst : name ∉ scope.map Prod.fst := lookup_eq_none_iff_not_mem.1 hl
    rw [Env.under_of_not_mem (by rwa [hkeys]), Assignment.env]
    show ((σ.get? name).getD (.ident name)).denote I _ = _
    cases hr : σ.get? name with
    | some r =>
      -- No binder around is free in the replacement.
      refine denote_congr I r fun x hx => Env.under_of_not_mem ?_
      rw [hkeys]
      intro hm
      obtain ⟨p, hp, rfl⟩ := List.mem_map.1 hm
      exact hinv.fresh p hp (Assignment.mem_rangeFree hr hx)
    | none =>
      have hsnd : name ∉ scope.map Prod.snd := by
        have hkept := hinv.kept name (mem_free_ident.2 rfl) (by rw [hl]; rfl)
        rwa [innerBinders_of_lookup_eq_none hl] at hkept
      exact Env.under_of_not_mem (by rwa [hkeys])

/-- `substIn` has the meaning of the term in the updated environment, if all places are
    `boundAlike`. -/
theorem denote_substIn (I : Interpretation D) (e : Env D) (t : Term) {scope : List (Ident × Ident)}
    {vals : List D} (hlen : scope.length = vals.length)
    (hplaces : ∀ p ∈ t.places σ scope, p.boundAlike ∧ ScopeInv σ p.scope (.ident p.name)) :
    (t.substIn σ scope).denote I (e.under ((scope.map Prod.snd).zip vals)) =
      t.denote I ((σ.env I e).under ((scope.map Prod.fst).zip vals)) := by
  induction t using induct generalizing scope vals with
  | app head args ihHead ihArgs =>
    rw [places, placesList_eq_flatMap] at hplaces
    have hhead := ihHead hlen fun p hp => hplaces p (List.mem_append_left _ hp)
    have hargs := fun a ha =>
      ihArgs a ha hlen fun p hp => hplaces p
        (List.mem_append_right _ (List.mem_flatMap.2 ⟨a, ha, hp⟩))
    rw [substIn, denote, denote, denoteList_eq_map, denoteList_eq_map, substList_eq_map,
      List.map_map, hhead, ← List.map_congr_left hargs]
    rfl
  | list items ih | set items ih | tuple items ih | nary op items ih =>
    rw [places, placesList_eq_flatMap] at hplaces
    have hitems := fun a ha => ih a ha hlen fun p hp => hplaces p (List.mem_flatMap.2 ⟨a, ha, hp⟩)
    rw [substIn, denote, denote, denoteList_eq_map, denoteList_eq_map, substList_eq_map,
      List.map_map, ← List.map_congr_left hitems]
    rfl
  | record fields ih =>
    rw [places, placesFields_eq_flatMap] at hplaces
    have hfields := fun f hf => ih f hf hlen fun p hp => hplaces p (List.mem_flatMap.2 ⟨f, hf, hp⟩)
    rw [substIn, denote, denote, denoteFields_eq_map, denoteFields_eq_map, substFields_eq_map,
      List.map_map, ← List.map_congr_left fun f hf => congrArg (Prod.mk f.1) (hfields f hf)]
    rfl
  | ident name =>
    obtain ⟨hbound, hinv⟩ := hplaces ⟨scope, name⟩ List.mem_cons_self
    exact denote_substIn_ident I e hlen hbound hinv
  | quant kind bound types body ih =>
    rw [substIn, denote, denote, List.length_map, length_renameBinders]
    refine congrArg (I.quant kind types bound.length) (funext fun v => ?_)
    -- The binders get the same values on both sides, the last of them being the innermost.
    have hbody := @ih ((renameBinders σ.rangeFree bound body.free [] bound).reverse ++ scope)
      (Env.values bound.length v ++ vals) (by simp [length_renameBinders, hlen]) hplaces
    rw [map_snd_renamed_append, map_fst_renamed_append,
      List.zip_append (by simp [length_renameBinders]), List.zip_append (by simp),
      ← Env.under_under, ← Env.under_under] at hbody
    rw [Env.bind, Env.bind, List.length_map, length_renameBinders]
    exact hbody
  | caseOf scrutinee arms ihScrutinee ihArms =>
    rw [places, placesArms_eq_flatMap] at hplaces
    have hscrutinee := ihScrutinee hlen fun p hp => hplaces p (List.mem_append_left _ hp)
    rw [substIn, denote, denote, denoteArms_eq_map, denoteArms_eq_map, substArms_eq_map,
      List.map_map, hscrutinee]
    refine congrArg (I.caseOf _) (List.map_congr_left fun a ha =>
      congrArg (Prod.mk a.1) (funext fun v => ?_))
    -- So do the identifiers of a pattern, which keep their names.
    have hbody := @ihArms a ha (a.1.free.map (fun x => (x, x)) ++ scope) (a.1.free.map v ++ vals)
      (by simp [hlen]) fun p hp => hplaces p
        (List.mem_append_right _ (List.mem_flatMap.2 ⟨a, ha, hp⟩))
    rw [(map_pattern_append _ _).1, (map_pattern_append _ _).2, List.zip_append (by simp),
      List.zip_append (by simp), ← Env.under_under, ← Env.under_under] at hbody
    exact hbody
  | typed term typ ih =>
    rw [places] at hplaces
    rw [substIn, denote, denote, ih hlen hplaces]
  | lit value => rfl

/-! ## Binding -/

/-- An identifier whose `nameless` form is as it should be is `boundAlike`. -/
private theorem boundAlike_of_nameless_ident {scope : List (Ident × Ident)} {name : Ident}
    (h : ((Term.ident name).substIn σ scope).nameless .free (scope.map Prod.snd) =
      (Term.ident name).nameless σ.nameless (scope.map Prod.fst)) :
    Place.boundAlike ⟨scope, name⟩ := by
  intro y hy
  simp only at hy ⊢
  -- Both names are among the binders, so both nameless forms are indices.
  have hmem : (name, y) ∈ scope := mem_of_lookup_eq_some hy
  obtain ⟨i, hi⟩ := Option.isSome_iff_exists.1
    (List.isSome_idxOf?.2 (List.mem_map_of_mem (f := Prod.fst) hmem))
  obtain ⟨j, hj⟩ := Option.isSome_iff_exists.1
    (List.isSome_idxOf?.2 (List.mem_map_of_mem (f := Prod.snd) hmem))
  simp only at hi hj
  simp only [substIn, hy, nameless, hi, hj, Nameless.bound.injEq] at h
  rw [hi, hj, h]

/-- If the `nameless` form of the result is as it should be then all places are `boundAlike`. -/
theorem boundAlike_of_nameless_eq (t : Term) {scope : List (Ident × Ident)}
    (h : (t.substIn σ scope).nameless .free (scope.map Prod.snd) =
      t.nameless σ.nameless (scope.map Prod.fst))
    {p : Place} (hp : p ∈ t.places σ scope) : p.boundAlike := by
  -- The forms are built alike, so those of the parts are equal, down to the identifiers.
  induction t using induct generalizing scope with
  | app head args ihHead ihArgs =>
    rw [substIn, nameless, nameless, namelessList_eq_map, namelessList_eq_map, substList_eq_map,
      List.map_map, Nameless.app.injEq, List.map_inj_left] at h
    rw [places, placesList_eq_flatMap, List.mem_append, List.mem_flatMap] at hp
    rcases hp with hp | ⟨a, ha, hp⟩
    · exact ihHead h.1 hp
    · exact ihArgs a ha (h.2 a ha) hp
  | list items ih | set items ih | tuple items ih =>
    simp only [substIn, nameless, namelessList_eq_map, substList_eq_map, List.map_map,
      Nameless.list.injEq, Nameless.set.injEq, Nameless.tuple.injEq, List.map_inj_left] at h
    rw [places, placesList_eq_flatMap, List.mem_flatMap] at hp
    obtain ⟨a, ha, hp⟩ := hp
    exact ih a ha (h a ha) hp
  | record fields ih =>
    rw [substIn, nameless, nameless, namelessFields_eq_map, namelessFields_eq_map,
      substFields_eq_map, List.map_map, Nameless.record.injEq, List.map_inj_left] at h
    rw [places, placesFields_eq_flatMap, List.mem_flatMap] at hp
    obtain ⟨f, hf, hp⟩ := hp
    exact ih f hf (congrArg Prod.snd (h f hf)) hp
  | ident name =>
    rw [places, List.mem_singleton] at hp
    subst hp
    exact boundAlike_of_nameless_ident h
  | nary op args ih =>
    rw [substIn, nameless, nameless, namelessList_eq_map, namelessList_eq_map, substList_eq_map,
      List.map_map, Nameless.nary.injEq, List.map_inj_left] at h
    rw [places, placesList_eq_flatMap, List.mem_flatMap] at hp
    obtain ⟨a, ha, hp⟩ := hp
    exact ih a ha (h.2 a ha) hp
  | quant kind bound types body ih =>
    rw [substIn, nameless, nameless, Nameless.quant.injEq, ← map_snd_renamed_append,
      ← map_fst_renamed_append σ.rangeFree bound body.free] at h
    exact ih h.2.2.2 hp
  | caseOf scrutinee arms ihScrutinee ihArms =>
    rw [substIn, nameless, nameless, namelessArms_eq_map, namelessArms_eq_map, substArms_eq_map,
      List.map_map, Nameless.caseOf.injEq, List.map_inj_left] at h
    rw [places, placesArms_eq_flatMap, List.mem_append, List.mem_flatMap] at hp
    rcases hp with hp | ⟨a, ha, hp⟩
    · exact ihScrutinee h.1 hp
    · have harm := congrArg Prod.snd (h.2 a ha)
      simp only [Function.comp_def, ← (map_pattern_append _ _).1,
        ← (map_pattern_append _ _).2] at harm
      exact ihArms a ha harm hp
  | typed term typ ih =>
    rw [substIn, nameless, nameless, Nameless.typed.injEq] at h
    exact ih h.1 hp
  | lit value => cases hp

/-- What has the meaning of the substituted term under every `Interpretation` has its `nameless`
    form. -/
theorem nameless_subst_of_denote {t u : Term}
    (h : ∀ (I : Interpretation (Nat → Nameless)) (e : Env (Nat → Nameless)),
      u.denote I e = t.denote I (σ.env I e)) : u.nameless .free [] = t.nameless σ.nameless [] := by
  -- A replacement stands below no binder of the term, and its nameless form is the same at every
  -- depth.
  have henv : σ.env namelessModel (namelessEnv .free 0 []) = namelessEnv σ.nameless 0 [] := by
    funext x depth
    show σ.env namelessModel (namelessEnv .free 0 []) x depth = σ.nameless x
    rw [Assignment.env, Assignment.nameless]
    cases σ.get? x with
    | none => rfl
    | some r => exact denote_namelessModel .free depth [] r
  have hzero := congrFun (h namelessModel (namelessEnv .free 0 [])) 0
  rw [henv] at hzero
  rw [← denote_namelessModel .free 0 [] u, ← denote_namelessModel σ.nameless 0 [] t]
  exact hzero

/-- `subst` is faithful exactly if it captures nothing.  Let the identifiers of patterns not be free
    in a replacement.  Then the following are equivalent: no occurrence is `captured`; every bound
    occurrence keeps its binder (`boundAlike`); the result denotes what the term denotes with the
    values of the replacements; the result is the substituted term up to the names of quantifier
    binders. -/
theorem subst_faithful_tfae (σ : Assignment) (t : Term)
    (hpat : ∀ x ∈ t.patternIdents, x ∉ σ.rangeFree) :
    List.TFAE [
      ∀ p ∈ t.places σ [], p.captured = false,
      ∀ p ∈ t.places σ [], p.boundAlike,
      ∀ (D : Type) (I : Interpretation D) (e : Env D),
        (t.subst σ).denote I e = t.denote I (σ.env I e),
      (t.subst σ).nameless .free [] = t.nameless σ.nameless []] := by
  have hinv : ∀ p ∈ t.places σ [], ScopeInv σ p.scope (.ident p.name) := fun _ hp =>
    ScopeInv.nil.of_mem_places hpat hp
  tfae_have 1 ↔ 2 := forall₂_congr fun p hp => (hinv p hp).boundAlike_iff.symm
  tfae_have 2 → 3 := fun h D I e =>
    @denote_substIn D σ I e t [] [] rfl fun p hp => ⟨h p hp, hinv p hp⟩
  tfae_have 3 → 4 := fun h => nameless_subst_of_denote (h (Nat → Nameless))
  tfae_have 4 → 2 := fun h p hp => @boundAlike_of_nameless_eq σ t [] h p hp
  tfae_finish

/-- The assignment of the examples below, which replaces `y` by `x`. -/
def yByX : Assignment := Table.empty.insert "y" (.ident "x")

/-- A quantifier over `x` with a case split below it. -/
def splitBelowX : Term :=
  .all ["x"] (.caseOf (.ident "y")
    [(.app (.ident "c") [.ident "z"], .eq (.ident "x") (.ident "z"))])

/-- In `splitBelowX` the quantifier is renamed, the pattern below it is not, and the result has the
    right meaning. -/
theorem subst_faithful_splitBelowX :
    ("z" ∈ splitBelowX.patternIdents ∧ ∀ x ∈ splitBelowX.patternIdents, x ∉ yByX.rangeFree) ∧
      splitBelowX.subst yByX =
        .all ["x'"] (.caseOf (.ident "x")
          [(.app (.ident "c") [.ident "z"], .eq (.ident "x'") (.ident "z"))]) ∧
      ∀ (D : Type) (I : Interpretation D) (e : Env D),
        (splitBelowX.subst yByX).denote I e = splitBelowX.denote I (yByX.env I e) :=
  ⟨by decide, by decide +kernel,
    ((subst_faithful_tfae yByX splitBelowX (by decide)).out 0 2).1 (by decide +kernel)⟩

/-- Two quantifiers, the inner one over the name that the outer one gets. -/
def primeBelowX : Term := .all ["x"] (.all ["x'"] (.eq (.ident "x") (.ident "y")))

/-- `subst` does not avoid capture: the occurrence of the outer `x` in `primeBelowX` ends up bound
    by the inner quantifier, and the result means something else. -/
theorem subst_not_capture_avoiding :
    (∀ x ∈ primeBelowX.patternIdents, x ∉ yByX.rangeFree) ∧
      primeBelowX.subst yByX = .all ["x'"] (.all ["x'"] (.eq (.ident "x'") (.ident "x"))) ∧
      (primeBelowX.subst yByX).nameless .free [] ≠ primeBelowX.nameless yByX.nameless [] ∧
      ¬∀ (D : Type) (I : Interpretation D) (e : Env D),
        (primeBelowX.subst yByX).denote I e = primeBelowX.denote I (yByX.env I e) := by
  -- The left operand has the inner quantifier's name in the result, but belongs to the outer one.
  let place : Place := ⟨[("x'", "x'"), ("x", "x'")], "x"⟩
  have hplace : ¬place.boundAlike := fun h => absurd (h "x'" rfl) (by decide)
  have hne : (primeBelowX.subst yByX).nameless .free [] ≠ primeBelowX.nameless yByX.nameless [] :=
    fun h => hplace (@boundAlike_of_nameless_eq yByX primeBelowX [] h place (by decide +kernel))
  exact ⟨by decide, by decide +kernel, hne,
    fun h => hne (nameless_subst_of_denote (h (Nat → Nameless)))⟩

end Term

end Warrant
