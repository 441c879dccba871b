import Warrant.Proofs.Discharges
import Warrant.Proofs.FreeNames

/-!
# What the assumption about a verification condition leaves free

The final lemma assumes that the verification condition follows from its axioms, for all values of
parameters, locals and functions.  An axiom is written twice: as the definition of its name over the
free identifiers of its term, and as a hypothesis, the name applied to what stands for these
identifiers.  In the hypotheses and in the condition the names of the source program are replaced,
each on its own, by identifiers that the assumption quantifies.

* `VcAxiom.hypothesis_eq`: the hypothesis of an axiom, by the parameters of its definition.
* `VcAxiom.definition_fits_hypothesis`: the definition and the hypothesis fit each other.
* `Assignment.Into`: every replacement is one of the given identifiers; `into_vcNames` says so of a
  condition.
* `isSome_get?_vcNames`: every source name and every renamed one has a replacement.
* `Assembly.no_source_name_free`: what is free in the assumption is no name of the source program.
-/

namespace Warrant

/-! ## Axioms as definitions and as hypotheses -/

/-- The identifier `x` stands somewhere in the term where no binder binds it (`Place.Unbound`). -/
def Term.OccursFree (t : Term) (x : Ident) : Prop :=
  ∃ p ∈ t.places .empty [], p.Unbound ∧ p.name = x

/-- `name` applied to arguments; the name alone if there are none. -/
def Term.applied (name : Ident) : List Term → Term
  | [] => .ident name
  | args => .call name args

/-- What is free in `applied`: the name, and what is free in the arguments. -/
private theorem Term.mem_free_applied {name y : Ident} {args : List Term} :
    y ∈ (applied name args).free ↔ y = name ∨ ∃ arg ∈ args, y ∈ arg.free := by
  cases args with
  | nil => simp [applied]
  | cons arg args => simp [applied, call]

/-- The `image` of an identifier means what the identifier means after the assignment. -/
private theorem Assignment.denote_image {D : Type} (σ : Assignment) (I : Interpretation D)
    (e : Env D) (x : Ident) : (σ.image x).denote I e = σ.env I e x := by
  rw [image, env]
  cases σ.get? x <;> rfl

namespace VcAxiom

variable (a : VcAxiom) (σ : Assignment)

/-- `VcAxiom.hypothesis` is the name applied to the `image` of each parameter of the definition. -/
theorem hypothesis_eq : a.hypothesis σ = .applied a.name (a.term.free.map σ.image) := rfl

/-- The term of an axiom means the same with its parameters bound to their `image` as with the
    replacements. -/
private theorem denote_term_at_images {D : Type} (I : Interpretation D) (e : Env D) :
    a.term.denote I (e.under (a.term.free.zip ((a.term.free.map σ.image).map (Term.denote I e)))) =
      a.term.denote I (σ.env I e) := by
  rw [List.map_map, ← List.map_prod_left_eq_zip]
  -- The term sees its parameters only, and none of them is bound twice.
  refine Term.denote_congr I a.term fun x hx => ?_
  have hnodup : ((a.term.free.map fun x =>
      (x, (Term.denote I e ∘ σ.image) x)).map Prod.fst).Nodup := by
    rw [List.map_map]
    exact (List.map_id a.term.free).symm ▸ a.term.nodup_free
  exact (Env.under_of_mem hnodup (List.mem_map.2 ⟨x, hx, rfl⟩)).trans (σ.denote_image I e x)

/-- `VcAxiom.definition` has the identifiers that occur free in the term as parameters, each once.
    `VcAxiom.hypothesis` applies the name to as many arguments, to the `image` of each of the
    parameters.  If no identifier of a case pattern is free in a replacement, the arguments have the
    free identifiers of the substituted term; in any case the right side of the definition, at the
    arguments, means what the term means with the replacements. -/
theorem definition_fits_hypothesis (a : VcAxiom) :
    ∃ params : List Ident,
      a.definition = .definition a.name { lhs := params.map .ident, rhs := a.term } ∧ params.Nodup ∧
      (∀ x, x ∈ params ↔ a.term.OccursFree x) ∧
      ∀ σ : Assignment, ∃ args : List Term,
        a.hypothesis σ = .applied a.name args ∧ args.length = params.length ∧
        (∀ (i : Nat) (x : Ident), params[i]? = some x → args[i]? = some (σ.image x)) ∧
        ((∀ x ∈ a.term.patternIdents, x ∉ σ.rangeFree) →
          ∀ y, (∃ arg ∈ args, y ∈ arg.free) ↔ y ∈ (a.term.subst σ).free) ∧
        ∀ {D : Type} (I : Interpretation D) (e : Env D),
          a.term.denote I (e.under (params.zip (args.map (Term.denote I e)))) =
            a.term.denote I (σ.env I e) := by
  refine ⟨a.term.free, rfl, a.term.nodup_free, fun x => Term.mem_free_iff_unbound .empty a.term, ?_⟩
  intro σ
  refine ⟨a.term.free.map σ.image, a.hypothesis_eq σ, List.length_map _, ?_, ?_,
    a.denote_term_at_images σ⟩
  · intro i x hx
    rw [List.getElem?_map, hx]
    rfl
  · intro hpat y
    -- Parameter by parameter or in the whole term, the same replacements come in.
    rw [Term.mem_free_subst_iff hpat]
    simp only [List.mem_map, exists_exists_and_eq_and]

/-- An axiom with a quantifier and a case split, about a function and a variable. -/
def callBelowX : VcAxiom where
  name := "ax"
  term := .all ["x"] (.caseOf (.call "f" [.ident "x", .ident "y"])
    [(.call "Some" [.ident "z"], .eq (.ident "z") (.ident "y"))])
  kind := .source

/-- The hypothesis of `callBelowX` passes the replacement of the variable, which is free in the
    substituted axiom too. -/
theorem definition_fits_callBelowX :
    (∀ x ∈ callBelowX.term.patternIdents, x ∉ Term.yByX.rangeFree) ∧
      callBelowX.hypothesis Term.yByX = .call "ax" [.ident "f", .ident "x"] ∧
      ∃ args, callBelowX.hypothesis Term.yByX = .applied "ax" args ∧
        ∀ y, (∃ arg ∈ args, y ∈ arg.free) ↔ y ∈ (callBelowX.term.subst Term.yByX).free := by
  have hpat : ∀ x ∈ callBelowX.term.patternIdents, x ∉ Term.yByX.rangeFree := by decide
  obtain ⟨_, _, _, _, hfits⟩ := definition_fits_hypothesis callBelowX
  obtain ⟨args, hargs, _, _, hfree, _⟩ := hfits Term.yByX
  exact ⟨hpat, by decide, args, hargs, hfree hpat⟩

end VcAxiom

/-! ## What replaces the names of the source program -/

/-- Every replacement of `σ` is one of the identifiers `ids`. -/
def Assignment.Into (σ : Assignment) (ids : List Ident) : Prop :=
  ∀ x r, σ.get? x = some r → ∃ y ∈ ids, r = .ident y

namespace Assignment

variable {σ : Assignment} {ids : List Ident} {x : Ident}

/-- `Into` holds of more identifiers. -/
theorem Into.mono {ids' : List Ident} (h : σ.Into ids) (hsub : ids ⊆ ids') : σ.Into ids' := by
  intro x r hr
  obtain ⟨y, hy, hyr⟩ := h x r hr
  exact ⟨y, hsub hy, hyr⟩

/-- `Table.insert` of one of the identifiers keeps `Into`. -/
theorem Into.insert {y : Ident} (h : σ.Into ids) (hy : y ∈ ids) (source : Ident) :
    Into (σ.insert source (.ident y)) ids := by
  intro x r hr
  rw [Table.get?_insert] at hr
  split at hr
  · exact ⟨y, hy, (Option.some.inj hr).symm⟩
  · exact h x r hr

/-- `Assignment.alias` brings in no new replacement, so it keeps `Into`. -/
theorem Into.alias (h : σ.Into ids) (link : String × String) : (σ.alias link).Into ids := by
  intro x r hr
  rw [get?_alias] at hr
  obtain hr | ⟨-, hr⟩ := Option.or_eq_some_iff.1 hr
  · exact h x r hr
  · split at hr
    · exact h _ r hr
    · cases hr

/-- `Assignment.alias` drops no replacement. -/
private theorem isSome_get?_alias (link : String × String) (h : (σ.get? x).isSome) :
    ((σ.alias link).get? x).isSome := by
  rw [get?_alias, Option.isSome_or, h, Bool.true_or]

section

variable {links : List (String × String)}

/-- Any number of `Assignment.alias` keep `Into`. -/
private theorem Into.foldl_alias (h : σ.Into ids) : Into (links.foldl Assignment.alias σ) ids := by
  induction links generalizing σ with
  | nil => exact h
  | cons link links ih => exact ih (h.alias link)

/-- Any number of `Assignment.alias` drop no replacement. -/
private theorem isSome_get?_foldl_alias (h : (σ.get? x).isSome) :
    ((links.foldl Assignment.alias σ).get? x).isSome := by
  induction links generalizing σ with
  | nil => exact h
  | cons link links ih => exact ih (isSome_get?_alias link h)

/-- A renamed variable whose source variable has a replacement gets one by its
    `Assignment.alias`. -/
private theorem isSome_get?_foldl_alias_of_mem {link : String × String} (hlink : link ∈ links)
    (h : (σ.get? link.2).isSome) : ((links.foldl Assignment.alias σ).get? link.1).isSome := by
  induction links generalizing σ with
  | nil => cases hlink
  | cons first links ih =>
    obtain rfl | hlink := List.mem_cons.1 hlink
    · -- The link takes effect here, unless the name has a replacement already.
      show ((links.foldl Assignment.alias (σ.alias link)).get? link.1).isSome
      refine isSome_get?_foldl_alias ?_
      rw [get?_alias, if_pos rfl, Option.isSome_or, h, Bool.or_true]
    · exact ih hlink (isSome_get?_alias first h)

end

end Assignment

namespace VcNames

variable {n : VcNames} {bs : List Binding}

/-- `VcNames.bindAll` replaces source names by identifiers in `binders`. -/
private theorem into_bindAll (h : n.subst.Into (n.binders.map Prod.fst)) :
    (n.bindAll bs).subst.Into ((n.bindAll bs).binders.map Prod.fst) := by
  induction bs generalizing n with
  | nil => exact h
  | cons b bs ih =>
    refine ih ?_
    -- The identifier that replaces the source name is the binder that is added.
    show Assignment.Into (n.subst.insert b.source (.ident (n.supply.name b.decl b.preferred).1))
      ((n.binders ++ [((n.supply.name b.decl b.preferred).1, b.typ)]).map Prod.fst)
    rw [List.map_append]
    exact (h.mono (List.subset_append_left ..)).insert (List.mem_append_right _ List.mem_cons_self)
      b.source

/-- After `VcNames.bindAll` the source name of every binding has a replacement. -/
private theorem isSome_get?_bindAll {x : Ident}
    (h : (n.subst.get? x).isSome ∨ ∃ b ∈ bs, b.source = x) :
    ((n.bindAll bs).subst.get? x).isSome := by
  induction bs generalizing n with
  | nil =>
    rcases h with h | ⟨b, hb, _⟩
    · exact h
    · cases hb
  | cons b bs ih =>
    refine ih ?_
    rw [get?_subst_bind]
    by_cases hb : b.source = x
    · simp [hb]
    · simpa [hb] using h

end VcNames

namespace Assembly

variable {a : Assembly} {x : Ident}

/-- `x` is the name of a parameter, local or function. -/
def Declares (a : Assembly) (x : Ident) : Prop :=
  (∃ v ∈ a.program.paramsAndLocals, v.name = x) ∨ ∃ f ∈ a.program.functions, f.name = x

/-- `x` is a declared name, or a renamed one whose source name is declared. -/
def IsSourceName (a : Assembly) (x : Ident) : Prop :=
  a.Declares x ∨ ∃ source, a.renamed.get? x = some source ∧ a.Declares source

/-- `vcNames` replaces names by identifiers that the assumption quantifies. -/
theorem into_vcNames (a : Assembly) : a.vcNames.subst.Into (a.vcNames.binders.map Prod.fst) := by
  rw [vcNames_eq]
  exact (VcNames.into_bindAll (n := {}) fun x r hr => by cases hr).foldl_alias

/-- Every declared name has a replacement in `declared`. -/
private theorem isSome_get?_declared (h : a.Declares x) : (a.declared.subst.get? x).isSome := by
  refine VcNames.isSome_get?_bindAll (.inr ?_)
  rcases h with ⟨v, hv, hname⟩ | ⟨f, hf, hname⟩
  · exact ⟨v.binding, List.mem_append_left _ (List.mem_map_of_mem hv), hname⟩
  · exact ⟨f.binding, List.mem_append_right _ (List.mem_map_of_mem hf), hname⟩

/-- Every name of the source program has a replacement in `vcNames`. -/
theorem isSome_get?_vcNames (h : a.IsSourceName x) : (a.vcNames.subst.get? x).isSome := by
  rw [vcNames_eq]
  rcases h with h | ⟨source, hsource, h⟩
  · exact Assignment.isSome_get?_foldl_alias (isSome_get?_declared h)
  · exact Assignment.isSome_get?_foldl_alias_of_mem ((Table.get?_eq_some_iff ..).1 hsource)
      (isSome_get?_declared h)

/-- The `image` of a source name is quantified. -/
private theorem exists_image_of_isSourceName (h : a.IsSourceName x) :
    ∃ y ∈ a.vcNames.binders.map Prod.fst, a.vcNames.subst.image x = .ident y := by
  obtain ⟨r, hr⟩ := Option.isSome_iff_exists.1 (isSome_get?_vcNames h)
  obtain ⟨y, hy, rfl⟩ := a.into_vcNames x r hr
  exact ⟨y, hy, by rw [Assignment.image, hr]; rfl⟩

/-! ## The assumption -/

/-- `x` is free in the condition or in the term of an axiom. -/
def Mentions (a : Assembly) (x : Ident) : Prop :=
  x ∈ a.vc.condition.free ∨ ∃ ax ∈ a.vc.axioms, x ∈ ax.term.free

/-- What is free in the `image` of an identifier, and not quantified, is that identifier, and no
    source name. -/
private theorem eq_of_mem_free_image {y : Ident} (hy : y ∈ (a.vcNames.subst.image x).free)
    (hout : y ∉ a.vcNames.binders.map Prod.fst) : y = x ∧ ¬a.IsSourceName y := by
  have himage : ∀ z, a.vcNames.subst.image x = .ident z → y = z := by
    intro z hz
    rw [hz] at hy
    exact Term.mem_free_ident.1 hy
  cases hr : a.vcNames.subst.get? x with
  | some r =>
    -- A replacement is quantified.
    obtain ⟨z, hz, rfl⟩ := a.into_vcNames x r hr
    obtain rfl := himage z (by rw [Assignment.image, hr]; rfl)
    exact absurd hz hout
  | none =>
    -- Without a replacement the identifier stays, and source names have one.
    obtain rfl := himage x (by rw [Assignment.image, hr]; rfl)
    refine ⟨rfl, fun hsource => ?_⟩
    have hsome := isSome_get?_vcNames hsource
    rw [hr] at hsome
    cases hsome

/-- What is free in a `Term.metaAll`. -/
private theorem mem_free_metaAll {binders : List (Ident × Typ)} {body : Term} {y : Ident} :
    y ∈ (Term.metaAll binders body).free ↔ y ∈ body.free ∧ y ∉ binders.map Prod.fst := by
  cases binders with
  | nil => simp [Term.metaAll]
  | cons b binders => exact Term.mem_free_quant

/-- What is free in hypotheses that imply a condition. -/
private theorem mem_free_foldr_metaImp {axioms : List VcAxiom} {σ : Assignment} {condition : Term}
    {y : Ident} :
    y ∈ (axioms.foldr (fun ax acc => .metaImp (ax.hypothesis σ) acc) condition).free ↔
      y ∈ condition.free ∨ ∃ ax ∈ axioms, y ∈ (ax.hypothesis σ).free := by
  induction axioms with
  | nil => simp
  | cons ax axioms ih =>
    rw [List.foldr_cons, Term.metaImp, Term.binary, Term.mem_free_nary]
    simp only [List.mem_cons, List.not_mem_nil, or_false, exists_eq_or_imp, exists_eq_left, ih]
    rw [or_left_comm]

/-- What is free in `vcAssumption` is the name of an axiom, or free in what the condition and the
    axioms say and no source name. -/
private theorem vcAssumption_free {y : Ident} (hy : y ∈ a.vcAssumption.free) :
    (∃ ax ∈ a.vc.axioms, ax.name = y) ∨ a.Mentions y ∧ ¬a.IsSourceName y := by
  obtain ⟨hbody, hout⟩ := mem_free_metaAll.1 hy
  rcases mem_free_foldr_metaImp.1 hbody with hcondition | ⟨ax, hax, hhyp⟩
  · obtain ⟨x, hx, hy⟩ := Term.exists_of_mem_free_subst hcondition
    obtain ⟨rfl, hsource⟩ := eq_of_mem_free_image hy hout
    exact .inr ⟨.inl hx, hsource⟩
  · rw [VcAxiom.hypothesis_eq, Term.mem_free_applied] at hhyp
    rcases hhyp with rfl | ⟨arg, harg, hy⟩
    · exact .inl ⟨ax, hax, rfl⟩
    · obtain ⟨x, hx, rfl⟩ := List.mem_map.1 harg
      obtain ⟨rfl, hsource⟩ := eq_of_mem_free_image hy hout
      exact .inr ⟨.inr ⟨ax, hax, hx⟩, hsource⟩

/-- The identifiers that are free in the replacements of `vcNames` are quantified. -/
private theorem mem_binders_of_mem_rangeFree {y : Ident} (hy : y ∈ a.vcNames.subst.rangeFree) :
    y ∈ a.vcNames.binders.map Prod.fst := by
  obtain ⟨r, hr, hy⟩ := List.mem_flatMap.1 hy
  obtain ⟨⟨x, r⟩, hmem, rfl⟩ := List.mem_map.1 hr
  obtain ⟨z, hz, rfl⟩ := a.into_vcNames x r ((Table.get?_eq_some_iff ..).2 hmem)
  rwa [Term.mem_free_ident.1 hy]

/-- A source name that is not bound in the condition is replaced by an identifier in `binders`.
    Where the patterns of the condition avoid these identifiers, no binder around the place has
    it. -/
private theorem exists_substIn_of_isSourceName {p : Place}
    (hp : p ∈ a.vc.condition.places a.vcNames.subst []) (hunbound : p.Unbound)
    (hsource : a.IsSourceName p.name) :
    ∃ y ∈ a.vcNames.binders.map Prod.fst,
      (Term.ident p.name).substIn a.vcNames.subst p.scope = .ident y ∧
      ((∀ x ∈ a.vc.condition.patternIdents, x ∉ a.vcNames.binders.map Prod.fst) →
        y ∉ p.scope.map Prod.snd) := by
  obtain ⟨y, hy, himage⟩ := exists_image_of_isSourceName hsource
  refine ⟨y, hy, ?_, fun hpat => ?_⟩
  · rw [Term.substIn, lookup_eq_none_iff_not_mem.2 hunbound]
    exact himage
  · have hinv : ScopeInv a.vcNames.subst p.scope (.ident p.name) :=
      ScopeInv.nil.of_mem_places
        (fun x hx hrange => hpat x hx (mem_binders_of_mem_rangeFree hrange)) hp
    refine hinv.not_mem_of_unbound hunbound ?_
    rw [himage]
    exact Term.mem_free_ident.2 rfl

/-- The assumption `VC` of the final lemma, and what is free there: for all quantified identifiers,
    the hypotheses of the axioms imply the substituted condition.

    What is free in it is the name of an axiom, or free in the condition or an axiom and neither
    declared nor renamed from something declared.  Wherever such a name is free in the condition,
    and wherever a hypothesis has an argument for one, there is an identifier that the assumption
    quantifies; in the condition only a case pattern can take it. -/
theorem no_source_name_free {decls : List Decl} (h : a.proof = .ok decls) :
    ∃ (front : List Decl) (final : Lemma) (assumption : Term) (hypotheses : List Term),
      decls = front ++ [.statement final] ∧ final.name = "end_to_end" ∧
      ("VC", assumption) ∈ final.assumptions ∧
      assumption = .metaAll a.vcNames.binders
        (hypotheses.foldr Term.metaImp (a.vc.condition.subst a.vcNames.subst)) ∧
      (∀ y ∈ assumption.free,
        (∃ ax ∈ a.vc.axioms, ax.name = y) ∨ a.Mentions y ∧ ¬a.IsSourceName y) ∧
      (∀ x path, a.vc.condition.FreeAt x path → a.IsSourceName x →
        ∃ y ∈ a.vcNames.binders.map Prod.fst,
          (a.vc.condition.subst a.vcNames.subst).subterm? path = some (.ident y)) ∧
      (∀ p ∈ a.vc.condition.places a.vcNames.subst [], p.Unbound → a.IsSourceName p.name →
        ∃ y ∈ a.vcNames.binders.map Prod.fst,
          (Term.ident p.name).substIn a.vcNames.subst p.scope = .ident y ∧
          ((∀ x ∈ a.vc.condition.patternIdents, x ∉ a.vcNames.binders.map Prod.fst) →
            y ∉ p.scope.map Prod.snd)) ∧
      List.Forall₂ (fun ax hypothesis => ∃ args : List Term,
        hypothesis = .applied ax.name args ∧ args = ax.term.free.map a.vcNames.subst.image ∧
        ∀ (i : Nat) (x : Ident), ax.term.free[i]? = some x → a.IsSourceName x →
          ∃ y ∈ a.vcNames.binders.map Prod.fst, args[i]? = some (.ident y))
        a.vc.axioms hypotheses := by
  obtain ⟨phase, ctors, assumptions, script, _, _, hvc, _, rfl⟩ := proof_cases h
  refine ⟨_, _, a.vcAssumption, a.vc.axioms.map fun ax => ax.hypothesis a.vcNames.subst, rfl, rfl,
    hvc, by rw [List.foldr_map]; rfl, fun y => vcAssumption_free, ?_,
    fun p => exists_substIn_of_isSourceName, ?_⟩
  · -- The condition: substitution keeps the path to a free identifier.
    intro x path hfree hsource
    obtain ⟨y, hy, himage⟩ := exists_image_of_isSourceName hsource
    exact ⟨y, hy, himage ▸ hfree.subterm?_substIn List.not_mem_nil⟩
  · -- The hypotheses: the parameters of an axiom are its free identifiers.
    rw [List.forall₂_map_right_iff]
    refine List.forall₂_same.2 fun ax _ => ?_
    refine ⟨ax.term.free.map a.vcNames.subst.image, ax.hypothesis_eq _, rfl, ?_⟩
    intro i x hx hsource
    obtain ⟨y, hy, himage⟩ := exists_image_of_isSourceName hsource
    exact ⟨y, hy, by rw [List.getElem?_map, hx, ← himage]; rfl⟩

/-- A condition that quantifies over the name of a parameter and has the renamed parameter, a
    function and a constant below, with an axiom about the renamed parameter. -/
def nestedCondition : VcInput where
  condition := .all ["x"] (.eq (.ident "x@0") (.call "length" [.ident "x", .ident "k"]))
  axioms := [⟨"x_type", .eq (.ident "x@0") (.ident "k"), .variable "x@0"⟩]

/-- What the proof of `nestedCondition` is assembled from. -/
def nestedAssembly (catalog : Catalog) : Assembly :=
  (Session.run { config := {} } Session.polymorphicCalls).2.assembly catalog
    Session.polymorphicProgram Session.oneBlock nestedCondition

/-- What replaces the names of `nestedCondition`. -/
def nestedSubst : Assignment :=
  ((Table.empty.insert "x" (.ident "x")).insert "length" (.ident "vc_length")).insert "x@0"
    (.ident "x")

/-- What the assumption about `nestedCondition` quantifies. -/
private theorem nestedAssembly_binders (catalog : Catalog) :
    (nestedAssembly catalog).vcNames.binders =
      [("x", .base .int), ("vc_length", .arrow (.data "val" [.var "a"]) (.base .int))] := by
  with_unfolding_all rfl

/-- The replacements of `nestedAssembly` are `nestedSubst`. -/
private theorem nestedAssembly_subst (catalog : Catalog) :
    (nestedAssembly catalog).vcNames.subst = nestedSubst := by
  with_unfolding_all rfl

/-- The assumption about `nestedCondition`: `x` stands for `x@0` and `vc_length` for `length`, below
    a binder that is renamed, and only the name of the axiom and the constant are free. -/
theorem no_source_name_free_nested :
    ∃ (catalog : Catalog) (decls front : List Decl) (final : Lemma) (assumption : Term),
      (nestedAssembly catalog).proof = .ok decls ∧ decls = front ++ [.statement final] ∧
      ("VC", assumption) ∈ final.assumptions ∧
      assumption =
        .quant .metaAll ["x", "vc_length"]
          (some [.base .int, .arrow (.data "val" [.var "a"]) (.base .int)])
          (.nary .metaImp
            [.app (.ident "x_type") [.ident "x", .ident "k"],
             .quant .all ["x'"] none
              (.nary .eq
                [.ident "x", .app (.ident "vc_length") [.ident "x'", .ident "k"]])]) ∧
      (nestedAssembly catalog).IsSourceName "x@0" ∧ (nestedAssembly catalog).IsSourceName "length" ∧
      ∀ y ∈ assumption.free, y = "x_type" ∨ y = "k" := by
  obtain ⟨theory, hdocument⟩ : ∃ theory,
      ((Session.run { config := {} } Session.polymorphicCalls).2.call
        (.generate nestedCondition [])).1 = .ok (some theory) := ⟨_, rfl⟩
  obtain ⟨_, p, graph, _, catalog, decls, hp, hgraph, _, _, hproof, _⟩ :=
    (Session.assemble_eq_ok_iff _).1 ((Session.call_generate_eq_ok_iff _).1 hdocument)
  obtain rfl : Session.polymorphicProgram = p := Option.some.inj hp
  obtain rfl : Session.oneBlock = graph := Option.some.inj hgraph
  change (nestedAssembly catalog).proof = .ok decls at hproof
  obtain ⟨front, final, assumption, hypotheses, hdecls, _, hvc, hassumption, hfree, _, _,
    hhypotheses⟩ := no_source_name_free hproof
  have hx : (nestedAssembly catalog).IsSourceName "x@0" :=
    .inr ⟨"x", rfl, .inl ⟨⟨"x", .int, 7⟩, List.mem_cons_self, rfl⟩⟩
  have hlength : (nestedAssembly catalog).IsSourceName "length" :=
    .inl (.inr ⟨_, List.mem_cons_self, rfl⟩)
  refine ⟨catalog, decls, front, final, assumption, hproof, hdecls, hvc, ?_, hx, hlength,
    fun y hy => ?_⟩
  · -- There is one hypothesis, and its arguments are what stands for `x@0` and `k`.
    obtain ⟨_, _, ⟨args, rfl, rfl, _⟩, htail, rfl⟩ := List.forall₂_cons_left_iff.1 hhypotheses
    obtain rfl := List.forall₂_nil_left_iff.1 htail
    rw [hassumption, nestedAssembly_binders, nestedAssembly_subst]
    change Term.metaAll _ (Term.metaImp _ (nestedCondition.condition.subst nestedSubst)) = _
    decide +kernel
  rcases hfree y hy with ⟨ax, hax, rfl⟩ | ⟨hmentions, hsource⟩
  · rw [List.mem_singleton.1 hax]
    exact .inl rfl
  · have hnames : y = "x@0" ∨ y = "length" ∨ y = "k" := by
      rcases hmentions with hcondition | ⟨ax, hax, haxiom⟩
      · change y ∈ ["x@0", "length", "k"] at hcondition
        simpa using hcondition
      · rw [List.mem_singleton.1 hax] at haxiom
        change y ∈ ["x@0", "k"] at haxiom
        grind
    rcases hnames with rfl | rfl | rfl
    · exact absurd hx hsource
    · exact absurd hlength hsource
    · exact .inr rfl

end Assembly

end Warrant
