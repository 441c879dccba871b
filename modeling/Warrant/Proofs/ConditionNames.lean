import Mathlib.Data.List.Nodup
import Warrant.Proofs.FinalScript
import Warrant.Proofs.RootSession

/-!
# What the names of a verification condition stand for

A name of the verification condition is read in two ways.  `Assembly.vcVariable` says which
parameter or local it means, and picks the fact that discharges an axiom about it;
`Assembly.vcNames` says what replaces it in the assumption about the condition.  Both know the names
of parameters and locals and the renamed variables, but the second knows the names of functions too,
and lets a function have the name of a parameter.

* `subst_bindAll`: a source name is replaced by the identifier of what was bound for it last.
* `WellNamed.get?_subst`: renamed variables are replaced like their source variables.
* `run_named`: what every session guarantees for the names of a program.
* `vcNames_agree_iff`: the readings agree exactly if no function has one of the names.
-/

namespace Warrant

open Semantics (pureType pureFunctionType)

/-! ## Binding declarations -/

/-- What `VcNames.bind` is given for a declaration. -/
structure Binding where
  decl : VcDecl
  source : String
  preferred : String
  typ : Typ

/-- What `bindVariable` binds for a parameter or local. -/
def Variable.binding (v : Variable) : Binding := ⟨.variable v.id, v.name, v.name, pureType v.ty⟩

/-- What `bindFunction` binds for a function. -/
def Function.binding (f : Function) : Binding :=
  ⟨.function f.name, f.name, "vc_" ++ f.name, pureFunctionType f⟩

namespace VcNames

/-- `bind` declarations in order. -/
def bindAll (n : VcNames) (bs : List Binding) : VcNames :=
  bs.foldl (fun n b => n.bind b.decl b.source b.preferred b.typ) n

variable {n : VcNames} {bs : List Binding} {decl : VcDecl} {x : String}

/-- `bindAll` binds the first declaration first. -/
private theorem bindAll_cons (n : VcNames) (b : Binding) (bs : List Binding) :
    n.bindAll (b :: bs) = (n.bind b.decl b.source b.preferred b.typ).bindAll bs :=
  rfl

/-- `bindAll` of two lists binds the one and then the other. -/
private theorem bindAll_append (n : VcNames) (bs bs' : List Binding) :
    n.bindAll (bs ++ bs') = (n.bindAll bs).bindAll bs' :=
  List.foldl_append

/-- `bindAll` takes names from the supply in order. -/
private theorem supply_bindAll (n : VcNames) (bs : List Binding) :
    (n.bindAll bs).supply = (n.supply.names (bs.map fun b => (b.decl, b.preferred))).2 := by
  induction bs generalizing n with
  | nil => rfl
  | cons b bs ih => exact ih _

/-- A declaration that holds a name keeps it through `bindAll`. -/
private theorem held_bindAll {y : String} (h : n.supply.held decl = some y) :
    (n.bindAll bs).supply.held decl = some y := by
  rw [supply_bindAll]
  exact NameSupply.held_names_of_held h

/-- Each of the `binders` has the name that its declaration holds in the end. -/
private theorem binders_bindAll (n : VcNames) (bs : List Binding) :
    (n.bindAll bs).binders.map (fun p => (some p.1, p.2)) =
      n.binders.map (fun p => (some p.1, p.2)) ++ bs.map fun b =>
        ((n.bindAll bs).supply.held b.decl, b.typ) := by
  induction bs generalizing n with
  | nil => simp [bindAll]
  | cons b bs ih =>
    rw [bindAll_cons, ih, List.map_cons, held_bindAll NameSupply.held_name_self]
    simp [bind]

/-- `bind` replaces the one source name. -/
theorem get?_subst_bind (n : VcNames) (b : Binding) (x : String) :
    (n.bind b.decl b.source b.preferred b.typ).subst.get? x =
      if b.source = x then some (.ident (n.supply.name b.decl b.preferred).1) else n.subst.get? x :=
  Table.get?_insert ..

/-- A name that is no `source` of a binding is replaced as before. -/
private theorem subst_bindAll_of_ne (h : ∀ b ∈ bs, b.source ≠ x) :
    (n.bindAll bs).subst.get? x = n.subst.get? x := by
  induction bs generalizing n with
  | nil => rfl
  | cons b bs ih =>
    rw [bindAll_cons, ih fun b' hb' => h b' (List.mem_cons_of_mem b hb'), get?_subst_bind,
      if_neg (h b List.mem_cons_self)]

/-- Where all bindings of a source name are for one declaration, `bindAll` replaces the name by the
    identifier of that. -/
theorem subst_bindAll (hx : ∃ b ∈ bs, b.source = x)
    (hdecl : ∀ b ∈ bs, b.source = x → b.decl = decl) :
    ∃ y, (n.bindAll bs).supply.held decl = some y ∧
      (n.bindAll bs).subst.get? x = some (.ident y) := by
  induction bs generalizing n with
  | nil =>
    obtain ⟨b, hb, _⟩ := hx
    cases hb
  | cons b bs ih =>
    rw [bindAll_cons]
    by_cases hlater : ∃ b' ∈ bs, b'.source = x
    · -- A later binding of the name takes the place of the first.
      exact ih hlater fun b' hb' => hdecl b' (List.mem_cons_of_mem b hb')
    · -- The first binding is the only one.
      have hne : ∀ b' ∈ bs, b'.source ≠ x := fun b' hb' heq => hlater ⟨b', hb', heq⟩
      have hsource : b.source = x := by
        obtain ⟨b', hb', heq⟩ := hx
        obtain rfl | hb' := List.mem_cons.1 hb'
        · exact heq
        · exact absurd heq (hne b' hb')
      have hd := hdecl b List.mem_cons_self hsource
      refine ⟨(n.supply.name b.decl b.preferred).1, held_bindAll (hd ▸ NameSupply.held_name_self),
        ?_⟩
      rw [subst_bindAll_of_ne hne, get?_subst_bind, if_pos hsource]

end VcNames

namespace Assignment

variable {σ : Assignment}

/-- After `alias` a renamed variable without a replacement has that of its source variable. -/
theorem get?_alias (σ : Assignment) (link : String × String) (x : String) :
    (σ.alias link).get? x = (σ.get? x).or (if link.1 = x then σ.get? link.2 else none) := by
  unfold Assignment.alias
  cases hsource : σ.get? link.2 with
  | none => simp
  | some t =>
    show (σ.insertNew link.1 t).get? x = _
    rw [Table.get?_insertNew]
    by_cases hx : link.1 = x
    · subst hx
      cases hσ : σ.get? link.1 <;> simp
    · simp [hx]

/-- After all links, renamed variables stand for what their source variables stand for, and nothing
    else changes. -/
private theorem get?_foldl_alias {links : List (String × String)}
    (hlinks : ∀ link ∈ links, (σ.get? link.2).isSome) (w : String) :
    (links.foldl Assignment.alias σ).get? w =
      (σ.get? w).or ((Table.lookup w links).bind σ.get?) := by
  induction links generalizing σ with
  | nil => simp [Table.lookup]
  | cons link links ih =>
    -- What has a replacement keeps it, so the later links see what this one saw.
    have hkeep {x : String} (hx : (σ.get? x).isSome) : (σ.alias link).get? x = σ.get? x := by
      rw [get?_alias, Option.or_of_isSome hx]
    have hlinks' : ∀ link' ∈ links, (σ.get? link'.2).isSome :=
      fun link' hlink' => hlinks link' (List.mem_cons_of_mem link hlink')
    have hkept : ∀ link' ∈ links, ((σ.alias link).get? link'.2).isSome := by
      intro link' hlink'
      rw [hkeep (hlinks' link' hlink')]
      exact hlinks' link' hlink'
    have hrest : (Table.lookup w links).bind (σ.alias link).get? =
        (Table.lookup w links).bind σ.get? := by
      cases hlookup : Table.lookup w links with
      | none => rfl
      | some o =>
        obtain ⟨link', hlink', rfl⟩ := List.mem_map.1 (Table.mem_of_lookup hlookup)
        exact hkeep (hlinks' link' hlink')
    rw [List.foldl_cons, ih hkept, hrest, get?_alias, Option.or_assoc, Table.lookup]
    by_cases hw : link.1 = w
    · -- The first link is found, and its source variable has a replacement.
      rw [if_pos hw, if_pos (Std.LawfulEqCmp.compare_eq_iff_eq.2 hw.symm), Option.bind_some,
        Option.or_of_isSome (hlinks link List.mem_cons_self)]
    · have hcmp : compare w link.1 ≠ .eq := fun h => hw (Std.LawfulEqCmp.compare_eq_iff_eq.1 h).symm
      rw [if_neg hw, if_neg hcmp, Option.none_or]

end Assignment

namespace Assembly

variable {a : Assembly} {v u : Variable} {w x : String}

/-! ## What is quantified -/

/-- The `VcNames` of the declarations, before renamed variables are added. -/
def declared (a : Assembly) : VcNames :=
  ({} : VcNames).bindAll (a.program.paramsAndLocals.map Variable.binding ++
    a.program.functions.map Function.binding)

/-- `vcNames` is `declared` with the renamed variables added to `subst`. -/
theorem vcNames_eq (a : Assembly) :
    a.vcNames = { a.declared with
      subst := a.renamed.entries.foldl Assignment.alias a.declared.subst } := by
  have hdeclared : a.declared = a.program.functions.foldl VcNames.bindFunction
      (a.program.paramsAndLocals.foldl VcNames.bindVariable {}) := by
    rw [declared, VcNames.bindAll_append, VcNames.bindAll, VcNames.bindAll, List.foldl_map,
      List.foldl_map]
    rfl
  rw [hdeclared]
  rfl

/-- Different declarations hold different names. -/
private theorem distinct_declared (a : Assembly) : a.declared.supply.Distinct := by
  rw [declared, VcNames.supply_bindAll]
  exact (NameSupply.distinct_empty "_").names _

/-- The assumption about the condition quantifies `x` for the parameter or local `v`, and for
    nothing else: the `binders` have `x` at the position of `v` only. -/
def Quantifies (a : Assembly) (v : Variable) (x : Ident) : Prop :=
  ∃ i : Nat, a.program.paramsAndLocals[i]? = some v ∧
    a.vcNames.binders[i]? = some (x, pureType v.ty) ∧
    ∀ j typ, a.vcNames.binders[j]? = some (x, typ) → j = i

/-- One of the `binders` is the name that the declaration at its position holds. -/
private theorem binders_getElem? (a : Assembly) (i : Nat) :
    (a.vcNames.binders[i]?).map (fun p => (some p.1, p.2)) =
      ((a.program.paramsAndLocals.map Variable.binding ++
        a.program.functions.map Function.binding)[i]?).map
        fun b => (a.declared.supply.held b.decl, b.typ) := by
  have hbinders := VcNames.binders_bindAll {}
    (a.program.paramsAndLocals.map Variable.binding ++ a.program.functions.map Function.binding)
  rw [vcNames_eq, ← List.getElem?_map, ← List.getElem?_map]
  exact congrArg (·[i]?) hbinders

/-- Where ids differ, a parameter or local holds the identifier that is quantified for it
    (`Quantifies`). -/
private theorem exists_quantifies (hids : a.program.localIds.Nodup)
    (hv : v ∈ a.program.paramsAndLocals) :
    ∃ x, a.declared.supply.held (.variable v.id) = some x ∧ a.Quantifies v x := by
  obtain ⟨i, hi⟩ := List.getElem?_of_mem hv
  have hlt : i < (a.program.paramsAndLocals.map Variable.binding).length := by
    rw [List.length_map]
    exact (List.getElem?_eq_some_iff.1 hi).1
  have hbinder := a.binders_getElem? i
  rw [List.getElem?_append_left hlt, List.getElem?_map, hi] at hbinder
  obtain ⟨⟨x, typ⟩, hxi, hx⟩ := Option.map_eq_some_iff.1 hbinder
  obtain ⟨hheld, rfl⟩ := Prod.mk.inj hx
  refine ⟨x, hheld.symm, i, hi, hxi, fun j typ hj => ?_⟩
  -- Another binder of that name would be for the same declaration, which is at one position only.
  have hbinder' := a.binders_getElem? j
  rw [hj] at hbinder'
  obtain ⟨b, hb, heq⟩ := Option.map_eq_some_iff.1 hbinder'.symm
  have hdecl : b.decl = .variable v.id := a.distinct_declared (Prod.mk.inj heq).1 hheld.symm
  rw [List.getElem?_append] at hb
  by_cases hj' : j < (a.program.paramsAndLocals.map Variable.binding).length
  · rw [if_pos hj', List.getElem?_map] at hb
    obtain ⟨u, hu, rfl⟩ := Option.map_eq_some_iff.1 hb
    have hid : u.id = v.id := VcDecl.variable.inj hdecl
    have hidi : a.program.localIds[i]? = some v.id := by
      rw [Program.localIds, List.getElem?_map, hi]
      rfl
    have hidj : a.program.localIds[j]? = some v.id := by
      rw [Program.localIds, List.getElem?_map, hu, ← hid]
      rfl
    exact (List.getElem?_inj (List.getElem?_eq_some_iff.1 hidj).1 hids).1 (hidj.trans hidi.symm)
  · rw [if_neg hj', List.getElem?_map] at hb
    -- A function is another declaration than the variable.
    obtain ⟨f, _, rfl⟩ := Option.map_eq_some_iff.1 hb
    cases hdecl

/-! ## What names are replaced by -/

/-- Names and ids of parameters and locals differ, and `renamed` variables come from parameters and
    locals. -/
structure WellNamed (a : Assembly) : Prop where
  names : (a.program.paramsAndLocals.map Variable.name).Nodup
  ids : a.program.localIds.Nodup
  renamed : ∀ w source, a.renamed.get? w = some source →
    source ∈ a.program.paramsAndLocals.map Variable.name

/-- A function is found in `declared` under its name, whatever else has the name. -/
private theorem declared_function {f : Function} (hf : f ∈ a.program.functions) :
    ∃ y, a.declared.supply.held (.function f.name) = some y ∧
      a.declared.subst.get? f.name = some (.ident y) := by
  rw [declared, VcNames.bindAll_append]
  refine VcNames.subst_bindAll ⟨f.binding, List.mem_map_of_mem hf, rfl⟩ fun b hb hsource => ?_
  obtain ⟨f', _, rfl⟩ := List.mem_map.1 hb
  exact congrArg VcDecl.function hsource

/-- A name that is not one of a function is found in `declared` among parameters and locals. -/
private theorem declared_eq_of_ne (h : ∀ f ∈ a.program.functions, f.name ≠ w) :
    a.declared.subst.get? w =
      (({} : VcNames).bindAll (a.program.paramsAndLocals.map Variable.binding)).subst.get? w := by
  rw [declared, VcNames.bindAll_append]
  refine VcNames.subst_bindAll_of_ne fun b hb => ?_
  obtain ⟨f, hf, rfl⟩ := List.mem_map.1 hb
  exact h f hf

/-- A parameter or local is found in `declared` under its name if no function has the name. -/
private theorem declared_variable (hnames : (a.program.paramsAndLocals.map Variable.name).Nodup)
    (hv : v ∈ a.program.paramsAndLocals) (h : ∀ f ∈ a.program.functions, f.name ≠ v.name) :
    ∃ y, a.declared.supply.held (.variable v.id) = some y ∧
      a.declared.subst.get? v.name = some (.ident y) := by
  rw [declared_eq_of_ne h, declared, VcNames.bindAll_append]
  obtain ⟨y, hheld, hy⟩ := @VcNames.subst_bindAll {}
    (a.program.paramsAndLocals.map Variable.binding) (.variable v.id) v.name
    ⟨v.binding, List.mem_map_of_mem hv, rfl⟩ fun b hb hsource => by
      obtain ⟨u, hu, rfl⟩ := List.mem_map.1 hb
      obtain rfl : u = v := List.inj_on_of_nodup_map hnames hu hv hsource
      rfl
  exact ⟨y, VcNames.held_bindAll hheld, hy⟩

/-- `declared` replaces every parameter or local, by what is bound for it or by what is bound for a
    function. -/
private theorem declared_isSome (hnames : (a.program.paramsAndLocals.map Variable.name).Nodup)
    (hv : v ∈ a.program.paramsAndLocals) : (a.declared.subst.get? v.name).isSome := by
  by_cases h : ∃ f ∈ a.program.functions, f.name = v.name
  · obtain ⟨f, hf, hname⟩ := h
    obtain ⟨y, _, hy⟩ := declared_function hf
    rw [← hname, hy]
    rfl
  · obtain ⟨y, _, hy⟩ := declared_variable hnames hv fun f hf hname => h ⟨f, hf, hname⟩
    rw [hy]
    rfl

/-- Renamed variables are replaced in `vcNames` like their source variables, unless their names are
    `declared`. -/
theorem WellNamed.get?_subst (h : a.WellNamed) (w : String) :
    a.vcNames.subst.get? w = (a.declared.subst.get? w).or
      ((a.renamed.get? w).bind a.declared.subst.get?) := by
  rw [vcNames_eq]
  refine Assignment.get?_foldl_alias (fun link hlink => ?_) w
  obtain ⟨v, hv, hname⟩ := List.mem_map.1
    (h.renamed link.1 link.2 ((Table.get?_eq_some_iff ..).2 hlink))
  rw [← hname]
  exact declared_isSome h.names hv

/-- By `vcVariable` a name means the parameter or local of that name, or else the one that it was
    renamed from. -/
theorem vcVariable_eq_ok (h : a.vcVariable w = .ok v) :
    v ∈ a.program.paramsAndLocals ∧
      (w = v.name ∨
        a.renamed.get? w = some v.name ∧ ∀ u ∈ a.program.paramsAndLocals, u.name ≠ w) := by
  have hnamed {name : String} {u : Variable} (hu : a.variableNamed? name = some u) :
      u ∈ a.program.paramsAndLocals ∧ u.name = name :=
    ⟨List.mem_of_find?_eq_some hu, by simpa using List.find?_some hu⟩
  unfold vcVariable at h
  split at h
  · next u hu =>
    obtain rfl := Except.ok.inj h
    exact ⟨(hnamed hu).1, .inl (hnamed hu).2.symm⟩
  · -- No parameter or local has the name, so it is looked up among the renamed ones.
    next hnone =>
    split at h
    · next u hu =>
      obtain rfl := Except.ok.inj h
      obtain ⟨source, hsource, hu⟩ := Option.bind_eq_some_iff.1 hu
      obtain ⟨hmem, rfl⟩ := hnamed hu
      exact ⟨hmem, .inr ⟨hsource, by simpa [variableNamed?] using hnone⟩⟩
    · cases h

section

variable (h : a.WellNamed) (hw : a.vcVariable w = .ok v)

include h hw

/-- Unless it is the name of a function, a name is replaced in `vcNames` like the parameter or local
    that it means by `vcVariable`. -/
private theorem WellNamed.get?_subst_of_ne (hne : ∀ f ∈ a.program.functions, f.name ≠ w) :
    a.vcNames.subst.get? w = a.declared.subst.get? v.name := by
  obtain ⟨hv, rfl | ⟨hrenamed, hother⟩⟩ := vcVariable_eq_ok hw
  · obtain ⟨t, ht⟩ := Option.isSome_iff_exists.1 (declared_isSome h.names hv)
    rw [h.get?_subst, ht, Option.some_or]
  · -- The name is not declared, so what replaces it comes from the renaming.
    have hnone : a.declared.subst.get? w = none := by
      rw [declared_eq_of_ne hne]
      refine VcNames.subst_bindAll_of_ne fun b hb => ?_
      obtain ⟨u, hu, rfl⟩ := List.mem_map.1 hb
      exact hother u hu
    rw [h.get?_subst, hnone, hrenamed]
    rfl

/-- Every name that means a parameter or local is replaced in `vcNames`. -/
private theorem WellNamed.get?_subst_isSome : (a.vcNames.subst.get? w).isSome := by
  by_cases hf : ∃ f ∈ a.program.functions, f.name = w
  · obtain ⟨f, hf, rfl⟩ := hf
    obtain ⟨y, _, hy⟩ := declared_function hf
    rw [h.get?_subst, hy]
    rfl
  · rw [h.get?_subst_of_ne hw fun f hf' hname => hf ⟨f, hf', hname⟩]
    exact declared_isSome h.names (vcVariable_eq_ok hw).1

/-- The readings `vcVariable` and `vcNames` of a name agree exactly if no function has this name or
    that of the parameter or local. -/
private theorem WellNamed.get?_subst_iff (hx : a.declared.supply.held (.variable v.id) = some x) :
    a.vcNames.subst.get? w = some (.ident x) ↔
      ∀ f ∈ a.program.functions, f.name ≠ w ∧ f.name ≠ v.name := by
  -- The identifier of a function is another one.
  have hfunction {f : Function} (hf : f ∈ a.program.functions) :
      a.declared.subst.get? f.name ≠ some (.ident x) := by
    obtain ⟨y, hheld, hy⟩ := declared_function hf
    rw [hy]
    intro heq
    obtain rfl : y = x := Term.ident.inj (Option.some.inj heq)
    cases a.distinct_declared hheld hx
  by_cases hf : ∃ f ∈ a.program.functions, f.name = w
  · obtain ⟨f, hf, rfl⟩ := hf
    -- A function of the name takes it, and then both sides fail.
    refine iff_of_false (fun heq => hfunction hf ?_) fun hall => (hall f hf).1 rfl
    obtain ⟨y, _, hy⟩ := declared_function hf
    rwa [h.get?_subst, hy, Option.some_or, ← hy] at heq
  · have hne : ∀ f ∈ a.program.functions, f.name ≠ w := fun f hf' hname => hf ⟨f, hf', hname⟩
    rw [h.get?_subst_of_ne hw hne]
    constructor
    · intro heq f hf
      refine ⟨hne f hf, fun hname => hfunction hf ?_⟩
      rw [hname, heq]
    · intro hall
      obtain ⟨y, hheld, hy⟩ :=
        declared_variable h.names (vcVariable_eq_ok hw).1 fun f hf => (hall f hf).2
      rw [hy, Option.some.inj (hheld.symm.trans hx)]

end

/-! ## Facts about the initial state -/

/-- The label of the fact about a parameter or local: `stateFacts` has it for that one and for no
    other, and in a script the line `from ParamsLocal have <label>: ...` introduces the fact about
    its initial value. -/
def StateFactOf (a : Assembly) (v : Variable) (label : String) : Prop :=
  a.stateFacts.get? v.id = some label ∧
    (∀ u ∈ a.program.paramsAndLocals, a.stateFacts.get? u.id = some label → u = v) ∧
    ∀ script, a.script = .ok script → ∃ decl, Semantics.variableDecl v = .ok decl ∧
      "from ParamsLocal have " ++ label ++ ": " ++ (initialFact v decl).quoted ∈ script

/-- With distinct ids, every parameter or local has a label of its own (`StateFactOf`). -/
private theorem exists_stateFactOf (hids : a.program.localIds.Nodup)
    (hv : v ∈ a.program.paramsAndLocals) : ∃ label, a.StateFactOf v label := by
  obtain ⟨name, hheld, hlabel⟩ := stateFacts_get? hv
  refine ⟨"sc_" ++ name, hlabel, fun u hu heq => ?_, fun script hscript => ?_⟩
  · -- Labels are equal only if the names are, and ids that hold the same name are the same.
    obtain ⟨name', hheld', hlabel'⟩ := stateFacts_get? hu
    obtain rfl : name' = name :=
      (String.append_right_inj "sc_").1 (Option.some.inj (hlabel'.symm.trans heq))
    have hdistinct : a.factNames.Distinct := (NameSupply.distinct_empty "_").names _
    exact List.inj_on_of_nodup_map hids hu hv (hdistinct hheld' hheld)
  · -- The fact is introduced in the opening of the script.
    obtain ⟨_, _, _, _, _, _, hopening, _, rfl⟩ := script_cases hscript
    obtain ⟨decl, hdecl, hmem⟩ := hopening.initialFact_mem hv hlabel
    exact ⟨decl, hdecl, List.mem_append_left _ (List.mem_append_left _ hmem)⟩

end Assembly

/-! ## Arguments of hypotheses -/

/-- The argument of a call at a position. -/
def Term.arg? : Term → Nat → Option Term
  | .app _ args, i => args[i]?
  | _, _ => none

/-- The `hypothesis` of an axiom has one argument for each free identifier of its term. -/
private theorem VcAxiom.hypothesis_arg? (ax : VcAxiom) (σ : Assignment) (i : Nat) :
    (ax.hypothesis σ).arg? i = (ax.term.free[i]?).map fun x => (σ.get? x).getD (.ident x) := by
  unfold VcAxiom.hypothesis
  split
  · next hargs =>
    have hfree : ax.term.free = [] := List.map_eq_nil_iff.1 hargs
    simp [hfree, Term.arg?]
  · show (ax.term.free.map fun x => (Term.ident x).subst σ)[i]? = _
    rw [List.getElem?_map]
    rfl

namespace Session

/-! ## What sessions guarantee -/

/-- `firstRepeated?` finds nothing exactly if the names differ from each other and from those in
    `seen`. -/
private theorem firstRepeated?_eq_none_iff (seen names : List String) :
    firstRepeated? seen names = none ↔ names.Nodup ∧ ∀ name ∈ names, name ∉ seen := by
  induction names generalizing seen with
  | nil => simp [firstRepeated?]
  | cons name names ih =>
    by_cases hmem : name ∈ seen
    · simp [firstRepeated?, hmem]
    · rw [firstRepeated?, if_neg hmem, ih]
      simp only [List.mem_cons, not_or, List.nodup_cons, forall_eq_or_imp]
      grind

/-- The names of parameters and locals of the `program` differ, and `renamed` variables come from
    them. -/
structure Named (s : Session) : Prop where
  names : ∀ p, s.program = some p → (p.paramsAndLocals.map Variable.name).Nodup
  renamed : ∀ w source, s.renamed.get? w = some source →
    ∃ p, s.program = some p ∧ source ∈ p.paramsAndLocals.map Variable.name
  /-- Nothing is renamed before there is a program. -/
  start : s.reached = .start → s.renamed = .empty

section

variable {s s' : Session} {c : Call} {a : Answer}

/-- `Named` is kept when renamed variables that come from the program are recorded. -/
theorem Named.recordAll (h : Named s) (hreached : s.reached ≠ .start) {p : Program}
    (hp : s.program = some p) {names : List String}
    (hnames : ∀ name ∈ names, declares p name = true) :
    Named { s with renamed := Session.recordAll s.renamed names } where
  names := h.names
  renamed w source hsource := by
    have hsource : (Session.recordAll s.renamed names).get? w = some source := hsource
    rw [get?_recordAll] at hsource
    -- What is recorded now comes from the program, and the rest did so before.
    by_cases hw : w ∈ names
    · rw [if_pos hw] at hsource
      obtain ⟨v, hv, hname⟩ := List.any_eq_true.1 (hnames w hw)
      have hname : v.name = sourceName w := by simpa using hname
      rw [← Option.some.inj hsource, ← hname]
      exact ⟨p, hp, List.mem_map_of_mem hv⟩
    · rw [if_neg hw] at hsource
      exact h.renamed w source hsource
  start hstart := absurd hstart hreached

/-- `Named` is kept by whatever is reported at a checkpoint, refused or not. -/
theorem Named.entry (h : Named s) (hreached : s.reached ≠ .start)
    (hprogram : c.checkpoint? = some .program → s.renamed = .empty) (hentry : Entry s c a s') :
    Named s' := by
  cases hentry with
  | program p hrepeated =>
    have hnames := ((firstRepeated?_eq_none_iff _ _).1 hrepeated).1
    refine ⟨fun p' hp' => Option.some.inj hp' ▸ hnames, fun w source hsource => ?_,
      fun hstart => absurd hstart hreached⟩
    -- A program is reported before anything is renamed.
    have hsource : s.renamed.get? w = some source := hsource
    rw [hprogram rfl] at hsource
    cases hsource
  | renames p names hp hdeclares => exact h.recordAll hreached hp hdeclares
  | renamesRefused p names name hp hfind =>
    obtain ⟨hrefused, before, after, rfl, hbefore⟩ := List.find?_eq_some_iff_append.1 hfind
    have hdeclares : ∀ name' ∈ before, declares p name' = true := by simpa using hbefore
    -- All names before the one that is refused are declared, so they are other names.
    have htake : (before ++ name :: after).takeWhile (· ≠ name) = before := by
      rw [List.takeWhile_append_of_pos fun name' hname' => ?_]
      · simp
      · have hne : name' ≠ name := by
          intro heq
          rw [← heq, hdeclares name' hname'] at hrefused
          cases hrefused
        simpa using hne
    rw [htake]
    exact h.recordAll hreached hp hdeclares
  | _ => exact ⟨h.names, h.renamed, h.start⟩

/-- `Named` is kept by every call. -/
theorem Named.step (h : Named s) (hstep : Step s c a s') : Named s' := by
  cases hstep with
  | enter k hc hnext hentry =>
    -- No checkpoint is followed by the start.
    have hk : k ≠ .start := by
      rintro rfl
      cases hr : s.reached <;> rw [hr] at hnext <;> cases hnext
    have hentered : Named { s with reached := k } :=
      ⟨h.names, h.renamed, fun hstart => absurd hstart hk⟩
    refine hentered.entry hk (fun hprogram => h.start ?_) hentry
    obtain rfl : k = .program := Option.some.inj (hc.symm.trans hprogram)
    cases hr : s.reached <;> rw [hr] at hnext <;> first | rfl | cases hnext
  | document => exact ⟨h.names, h.renamed, fun hstart => nomatch hstart⟩
  | _ => exact ⟨h.names, h.renamed, h.start⟩

end

/-- A new session is `Named`: it has no program, and nothing is renamed. -/
private theorem named_new (config : Config) : Named { config } where
  names _ h := nomatch h
  renamed _ _ h := nomatch h
  start _ := rfl

/-- So every session is `Named`, whatever was called. -/
theorem run_named (config : Config) (calls : List Call) : Named (run { config } calls).2 :=
  run_preserves (P := Named) (fun hstep h => h.step hstep) (named_new config) calls

/-- What a session assembles is `WellNamed`, if the ids of its program differ. -/
theorem Named.wellNamed {s : Session} {p : Program} (h : Named s) (hp : s.program = some p)
    (hids : p.localIds.Nodup) (catalog : Catalog) (graph : Graph) (vc : VcInput) :
    (s.assembly catalog p graph vc).WellNamed where
  names := h.names p hp
  ids := hids
  renamed w source hsource := by
    obtain ⟨p', hp', hmem⟩ := h.renamed w source hsource
    obtain rfl := Option.some.inj (hp'.symm.trans hp)
    exact hmem

/-- No function has the name `w` or that of the parameter or local `v`. -/
def Spares (p : Program) (w : String) (v : Variable) : Prop :=
  ∀ f ∈ p.functions, f.name ≠ w ∧ f.name ≠ v.name

/-- In every session, a name that means a parameter or local is replaced by the identifier that is
    quantified for that (`Quantifies`) exactly if the functions spare the names (`Spares`).  Then
    the source name is replaced by the same identifier.  An axiom about the variable is discharged
    with the fact about the parameter or local (`StateFactOf`), and its hypothesis speaks of the
    identifier exactly if the functions spare the names. -/
theorem vcNames_agree_iff {config : Config} {calls : List Call} {p : Program}
    (hp : (run { config } calls).2.program = some p) (hids : p.localIds.Nodup) (catalog : Catalog)
    (graph : Graph) (vc : VcInput) :
    let a := (run { config } calls).2.assembly catalog p graph vc
    ∀ {w : String} {v : Variable}, a.vcVariable w = .ok v →
      ∃ x label, a.Quantifies v x ∧ a.StateFactOf v label ∧
        (a.vcNames.subst.get? w = some (.ident x) ↔ Spares p w v) ∧
        (Spares p w v → a.vcNames.subst.get? v.name = some (.ident x)) ∧
        ∀ ax : VcAxiom, ax.kind = .variable w →
          a.axiomStep ax = .ok ("apply (simp add: HOL.conjunct2[OF " ++ label ++ "])") ∧
          ∀ i : Nat, ax.term.free[i]? = some w →
            ((ax.hypothesis a.vcNames.subst).arg? i = some (.ident x) ↔ Spares p w v) := by
  intro a w v hw
  have ha : a.WellNamed := (run_named config calls).wellNamed hp hids catalog graph vc
  have hv : v ∈ p.paramsAndLocals := (Assembly.vcVariable_eq_ok hw).1
  obtain ⟨x, hheld, hx⟩ := Assembly.exists_quantifies ha.ids hv
  obtain ⟨label, hlabel⟩ := Assembly.exists_stateFactOf ha.ids hv
  have hiff : a.vcNames.subst.get? w = some (.ident x) ↔ Spares p w v := ha.get?_subst_iff hw hheld
  refine ⟨x, label, hx, hlabel, hiff, fun hspares => ?_, fun ax hkind => ⟨?_, fun i hi => ?_⟩⟩
  · -- Both names are replaced like the declared one.
    rw [← hiff.2 hspares, ha.get?_subst_of_ne hw fun f hf => (hspares f hf).1]
    obtain ⟨t, ht⟩ := Option.isSome_iff_exists.1 (Assembly.declared_isSome ha.names hv)
    rw [ha.get?_subst, ht, Option.some_or]
  · -- The step for the axiom names the label that `stateFacts` has.
    have hfact : a.stateFact v = label := by rw [Assembly.stateFact, hlabel.1, Option.getD_some]
    simp only [Assembly.axiomStep, hkind, hw, ← hfact]
    rfl
  · obtain ⟨t, ht⟩ := Option.isSome_iff_exists.1 (ha.get?_subst_isSome hw)
    rw [VcAxiom.hypothesis_arg?, hi, ← hiff]
    simp [ht]

/-! ## Names that are used twice -/

/-- Calls that report the program `p` and renamed variables `names`. -/
def renamingCalls (p : Program) (names : List String) : List Call :=
  [.program p, .beforeAcyclification oneBlock, .beforeRenaming (.unchanged oneBlock),
    .afterRenaming names]

/-- What the proof about `p` with the renamed variables `names` is assembled from. -/
def renamingAssembly (catalog : Catalog) (p : Program) (names : List String) : Assembly :=
  (run { config := {} } (renamingCalls p names)).2.assembly catalog p oneBlock
    ⟨.lit (.bool true), []⟩

/-- A program with a parameter, and a local `x@1` whose name looks like a renamed variable. -/
def versionedProgram : Program where
  functions := [⟨"f", [], [], .int⟩]
  params := [⟨"x", .int, 4⟩]
  locals := [⟨"x@1", .int, 5⟩]

/-- The one function of `versionedProgram` is called `f`. -/
private theorem spares_versionedProgram {w : String} {v : Variable} (hw : "f" ≠ w)
    (hv : "f" ≠ v.name) : Spares versionedProgram w v := by
  intro f hf
  obtain rfl := List.mem_singleton.1 hf
  exact ⟨hw, hv⟩

/-- A renamed variable `x@0` is replaced like its source variable, but not `x@1`, which has the name
    of a local. -/
theorem vcNames_agree_versioned :
    ∃ catalog x y, Catalog.create {} {} [] [4, 5] [] = .ok catalog ∧
      (renamingAssembly catalog versionedProgram ["x@0", "x@1"]).Quantifies ⟨"x", .int, 4⟩ x ∧
      (renamingAssembly catalog versionedProgram ["x@0", "x@1"]).Quantifies ⟨"x@1", .int, 5⟩ y ∧
      (renamingAssembly catalog versionedProgram ["x@0", "x@1"]).vcNames.subst.get? "x@0" =
        some (.ident x) ∧
      (renamingAssembly catalog versionedProgram ["x@0", "x@1"]).vcNames.subst.get? "x@1" =
        some (.ident y) := by
  obtain ⟨catalog, hcatalog⟩ : ∃ catalog, Catalog.create {} {} [] [4, 5] [] = .ok catalog :=
    ⟨_, rfl⟩
  have hp : (run { config := {} } (renamingCalls versionedProgram ["x@0", "x@1"])).2.program =
      some versionedProgram := rfl
  have hx : (renamingAssembly catalog versionedProgram ["x@0", "x@1"]).vcVariable "x@0" =
    .ok ⟨"x", .int, 4⟩ := rfl
  have hy : (renamingAssembly catalog versionedProgram ["x@0", "x@1"]).vcVariable "x@1" =
    .ok ⟨"x@1", .int, 5⟩ := rfl
  obtain ⟨x, _, hquantx, _, hiffx, _⟩ := vcNames_agree_iff hp (by decide) catalog oneBlock _ hx
  obtain ⟨y, _, hquanty, _, hiffy, _⟩ := vcNames_agree_iff hp (by decide) catalog oneBlock _ hy
  exact ⟨catalog, x, y, hcatalog, hquantx, hquanty,
    hiffx.2 (spares_versionedProgram (by decide) (by decide)),
    hiffy.2 (spares_versionedProgram (by decide) (by decide))⟩

/-- A program with the parameter `x` and one `function`. -/
def clashingProgram (function : String) : Program where
  functions := [⟨function, [], [], .int⟩]
  params := [⟨"x", .int, 0⟩]

/-- A renamed variable `x@0` is replaced by the identifier of a function that has its name or that
    of its source variable. -/
theorem vcNames_disagree_clashing :
    ∃ catalog, Catalog.create {} {} [] [0] [] = .ok catalog ∧
      (∀ function ∈ ["x", "x@0"],
        (run { config := {} } (renamingCalls (clashingProgram function) ["x@0"])).2.program =
          some (clashingProgram function) ∧
        (renamingAssembly catalog (clashingProgram function) ["x@0"]).vcVariable "x@0" =
          .ok ⟨"x", .int, 0⟩) ∧
      (renamingAssembly catalog (clashingProgram "x") ["x@0"]).vcNames.binders.map Prod.fst =
        ["x", "vc_x"] ∧
      (renamingAssembly catalog (clashingProgram "x") ["x@0"]).vcNames.subst.get? "x@0" =
        some (.ident "vc_x") ∧
      (renamingAssembly catalog (clashingProgram "x@0") ["x@0"]).vcNames.binders.map Prod.fst =
        ["x", "vc_x_0"] ∧
      (renamingAssembly catalog (clashingProgram "x@0") ["x@0"]).vcNames.subst.get? "x@0" =
        some (.ident "vc_x_0") := by
  refine ⟨_, rfl, fun function hfunction => ?_, rfl, rfl, by with_unfolding_all rfl,
    by with_unfolding_all rfl⟩
  simp only [List.mem_cons, List.not_mem_nil, or_false] at hfunction
  obtain rfl | rfl := hfunction <;> exact ⟨rfl, rfl⟩

end Session

end Warrant
