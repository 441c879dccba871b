import Mathlib.Data.List.Basic
import Warrant.Logic.Subst

/-!
# Induction on terms

Terms hold lists of terms, of record fields and of case arms.  `Term.induct` is the induction
principle that says of each such list "every member satisfies the motive", and the `_eq_` lemmas
turn the companion functions on lists into `map`, `flatMap` and `foldl`, so that proofs about terms
never mention the companions.

The rest of the file characterises free identifiers: what is free below binders is what is free
without them, less the bound names (`occurrences_eq_filter`), a collector that goes through a term
gets to know all free occurrences of it and comes back with the stack it had
(`Collector.visit_reports`), and `mem_free_*` says constructor by constructor what is free.
-/

namespace Warrant

namespace Term

/-! ## The induction principle -/

section

variable {motive : Term → Prop}
  (app : ∀ head args, motive head → (∀ a ∈ args, motive a) → motive (.app head args))
  (list : ∀ items, (∀ a ∈ items, motive a) → motive (.list items))
  (set : ∀ items, (∀ a ∈ items, motive a) → motive (.set items))
  (record : ∀ fields, (∀ f ∈ fields, motive f.2) → motive (.record fields))
  (tuple : ∀ items, (∀ a ∈ items, motive a) → motive (.tuple items))
  (ident : ∀ name, motive (.ident name))
  (nary : ∀ op args, (∀ a ∈ args, motive a) → motive (.nary op args))
  (quant : ∀ kind bound types body, motive body → motive (.quant kind bound types body))
  (typed : ∀ term typ, motive term → motive (.typed term typ))
  (lit : ∀ value, motive (.lit value))

include app list set record tuple ident nary quant typed lit

/-- Induction on terms, with a hypothesis for every member of a list of subterms and for the
    patterns of a `Term.caseOf`. -/
@[elab_as_elim]
theorem induct_patterns
    (caseOf : ∀ scrutinee arms, motive scrutinee → (∀ a ∈ arms, motive a.1 ∧ motive a.2) →
      motive (.caseOf scrutinee arms))
    (t : Term) : motive t :=
  -- A list satisfies what all its members do, a field what its value does, an arm what both its
  -- terms do.
  @Term.rec motive (fun ts => ∀ a ∈ ts, motive a) (fun fields => ∀ f ∈ fields, motive f.2)
    (fun arms => ∀ a ∈ arms, motive a.1 ∧ motive a.2) (fun f => motive f.2)
    (fun a => motive a.1 ∧ motive a.2)
    app list set record tuple ident nary quant caseOf typed lit
    (fun _ h => absurd h List.not_mem_nil) (fun _ _ h hs => List.forall_mem_cons.2 ⟨h, hs⟩)
    (fun _ h => absurd h List.not_mem_nil) (fun _ _ h hs => List.forall_mem_cons.2 ⟨h, hs⟩)
    (fun _ h => absurd h List.not_mem_nil) (fun _ _ h hs => List.forall_mem_cons.2 ⟨h, hs⟩)
    (fun _ _ h => h) (fun _ _ hp h => ⟨hp, h⟩) t

/-- Induction on terms, with a hypothesis for every member of a list of subterms, but none for
    patterns as in `induct_patterns`. -/
@[elab_as_elim]
theorem induct
    (caseOf : ∀ scrutinee arms, motive scrutinee → (∀ a ∈ arms, motive a.2) →
      motive (.caseOf scrutinee arms))
    (t : Term) : motive t :=
  induct_patterns app list set record tuple ident nary quant typed lit
    (fun scrutinee arms hs ha => caseOf scrutinee arms hs fun a h => (ha a h).2) t

end

/-! ## The companions on lists -/

/-- `occurrencesList` is a `List.flatMap`. -/
theorem occurrencesList_eq_flatMap (bound : List Ident) (ts : List Term) :
    occurrencesList bound ts = ts.flatMap (occurrences bound) := by
  induction ts with
  | nil => rfl
  | cons t ts ih => exact congrArg (t.occurrences bound ++ ·) ih

/-- `occurrencesFields` is a `List.flatMap`. -/
theorem occurrencesFields_eq_flatMap (bound : List Ident) (fields : List (Ident × Term)) :
    occurrencesFields bound fields = fields.flatMap fun f => f.2.occurrences bound := by
  induction fields with
  | nil => rfl
  | cons f fields ih => exact congrArg (f.2.occurrences bound ++ ·) ih

/-- `occurrencesArms` is a `List.flatMap`. -/
theorem occurrencesArms_eq_flatMap (bound : List Ident) (arms : List (Term × Term)) :
    occurrencesArms bound arms =
      arms.flatMap fun a => a.2.occurrences (a.1.occurrences [] ++ bound) := by
  induction arms with
  | nil => rfl
  | cons a arms ih => exact congrArg (a.2.occurrences (a.1.occurrences [] ++ bound) ++ ·) ih

/-- `substList` is a `List.map`. -/
theorem substList_eq_map (σ : Assignment) (scope : List (Ident × Ident)) (ts : List Term) :
    substList σ scope ts = ts.map (substIn σ scope) := by
  induction ts with
  | nil => rfl
  | cons t ts ih => exact congrArg (t.substIn σ scope :: ·) ih

/-- `substFields` is a `List.map` that keeps the labels. -/
theorem substFields_eq_map (σ : Assignment) (scope : List (Ident × Ident))
    (fields : List (Ident × Term)) :
    substFields σ scope fields = fields.map fun f => (f.1, f.2.substIn σ scope) := by
  induction fields with
  | nil => rfl
  | cons f fields ih => exact congrArg ((f.1, f.2.substIn σ scope) :: ·) ih

/-- `substArms` is a `List.map` that keeps the patterns. -/
theorem substArms_eq_map (σ : Assignment) (scope : List (Ident × Ident))
    (arms : List (Term × Term)) :
    substArms σ scope arms =
      arms.map fun a => (a.1, a.2.substIn σ (a.1.free.map (fun x => (x, x)) ++ scope)) := by
  induction arms with
  | nil => rfl
  | cons a arms ih =>
    exact congrArg ((a.1, a.2.substIn σ (a.1.free.map (fun x => (x, x)) ++ scope)) :: ·) ih

/-- `visitList` is a `List.foldl`. -/
private theorem visitList_eq_foldl (c : Collector) (ts : List Term) :
    c.visitList ts = ts.foldl Collector.visit c := by
  induction ts generalizing c with
  | nil => rfl
  | cons t ts ih => exact ih (c.visit t)

/-- `visitFields` is a `List.foldl`. -/
private theorem visitFields_eq_foldl (c : Collector) (fields : List (Ident × Term)) :
    c.visitFields fields = fields.foldl (fun c f => c.visit f.2) c := by
  induction fields generalizing c with
  | nil => rfl
  | cons f fields ih => exact ih (c.visit f.2)

/-- `visitArms` is a `List.foldl`. -/
private theorem visitArms_eq_foldl (c : Collector) (arms : List (Term × Term)) :
    c.visitArms arms =
      arms.foldl (fun c a => ((c.enter a.1.free).visit a.2).leave c.bound.length) c := by
  induction arms generalizing c with
  | nil => rfl
  | cons a arms ih => exact ih (((c.enter a.1.free).visit a.2).leave c.bound.length)

/-! ## Free occurrences -/

/-- Names are excluded one list after the other. -/
private theorem filter_filter_not_mem (xs names bound : List Ident) :
    (xs.filter (· ∉ names ++ [])).filter (· ∉ bound) = xs.filter (· ∉ names ++ bound) := by
  rw [List.filter_filter]
  refine List.filter_congr fun x _ => ?_
  simp [Bool.and_comm]

/-- The `occurrences` below binders are those without them, less the bound names. -/
theorem occurrences_eq_filter (t : Term) (bound : List Ident) :
    t.occurrences bound = (t.occurrences []).filter (· ∉ bound) := by
  induction t using induct generalizing bound with
  | app head args ihHead ihArgs =>
    simp only [occurrences, occurrencesList_eq_flatMap, List.filter_append, List.filter_flatMap,
      ← ihHead bound]
    exact congrArg (head.occurrences bound ++ ·) (List.flatMap_congr fun a ha => ihArgs a ha bound)
  | list items ih | set items ih | tuple items ih | nary op items ih =>
    simp only [occurrences, occurrencesList_eq_flatMap, List.filter_flatMap]
    exact List.flatMap_congr fun a ha => ih a ha bound
  | record fields ih =>
    simp only [occurrences, occurrencesFields_eq_flatMap, List.filter_flatMap]
    exact List.flatMap_congr fun f hf => ih f hf bound
  | ident name => by_cases hb : name ∈ bound <;> simp [occurrences, hb]
  | quant kind names types body ih =>
    -- The quantifier's own names are excluded on both sides.
    simp only [occurrences]
    rw [ih (names ++ bound), ih (names ++ []), filter_filter_not_mem]
  | caseOf scrutinee arms ihScrutinee ihArms =>
    simp only [occurrences, occurrencesArms_eq_flatMap, List.filter_append, List.filter_flatMap,
      ← ihScrutinee bound]
    refine congrArg (scrutinee.occurrences bound ++ ·) (List.flatMap_congr fun a ha => ?_)
    rw [ihArms a ha (a.1.occurrences [] ++ bound), ihArms a ha (a.1.occurrences [] ++ []),
      filter_filter_not_mem]
  | typed term typ ih => exact ih bound
  | lit value => rfl

/-- `occurrences_eq_filter` for one identifier. -/
private theorem mem_occurrences_iff (t : Term) (bound : List Ident) (x : Ident) :
    x ∈ t.occurrences bound ↔ x ∈ t.occurrences [] ∧ x ∉ bound := by
  rw [occurrences_eq_filter, List.mem_filter, decide_eq_true_eq]

/-- For `occurrences` only which names are bound matters. -/
private theorem occurrences_congr {bound bound' : List Ident} (h : ∀ x, x ∈ bound ↔ x ∈ bound')
    (t : Term) : t.occurrences bound = t.occurrences bound' := by
  rw [occurrences_eq_filter, occurrences_eq_filter t bound']
  exact List.filter_congr fun x _ => decide_eq_decide.2 (not_congr (h x))

end Term

/-! ## What a collector reports -/

namespace Collector

variable {c : Collector} {met : List Ident}

/-- A collector has `found` the identifiers of `met`, each once and in the order of their first
    occurrences. -/
structure Records (c : Collector) (met : List Ident) : Prop where
  seen : ∀ x, c.seen.contains x = true ↔ x ∈ met
  mem : ∀ x, x ∈ c.found ↔ x ∈ met
  order : c.found.Pairwise fun x y => met.idxOf x < met.idxOf y

/-- A new collector `Records` nothing. -/
private theorem records_empty : Records {} [] :=
  ⟨fun x => by simp [Table.contains, Table.get?_empty], fun x => by simp, .nil⟩

/-- What stands in `met` keeps its order when `more` is met. -/
private theorem Records.order_append (h : c.Records met) (more : List Ident) :
    c.found.Pairwise fun x y => (met ++ more).idxOf x < (met ++ more).idxOf y := by
  refine h.order.imp_of_mem fun {x y} hx hy hlt => ?_
  rwa [List.idxOf_append_of_mem ((h.mem x).1 hx), List.idxOf_append_of_mem ((h.mem y).1 hy)]

/-- `Collector.meet` records an identifier that is not bound where it is met. -/
theorem Records.meet (h : c.Records met) {x : Ident} (hx : x ∉ c.bound) :
    (c.meet x).Records (met ++ [x]) := by
  unfold Collector.meet
  by_cases hseen : c.seen.contains x = true
  · -- It was met before, so it is reported already.
    have hmet : x ∈ met := (h.seen x).1 hseen
    have hmem (y : Ident) : y ∈ met ++ [x] ↔ y ∈ met := by
      rw [List.mem_append, List.mem_singleton, or_iff_left_of_imp]
      rintro rfl
      exact hmet
    rw [if_pos (.inr hseen)]
    exact ⟨fun y => (h.seen y).trans (hmem y).symm, fun y => (h.mem y).trans (hmem y).symm,
      h.order_append [x]⟩
  · have hmet : x ∉ met := fun hm => hseen ((h.seen x).2 hm)
    rw [if_neg (not_or.2 ⟨hx, hseen⟩)]
    refine ⟨fun y => ?_, fun y => ?_, ?_⟩
    · rw [Table.contains_insert, Bool.or_eq_true, decide_eq_true_eq, h.seen, List.mem_append,
        List.mem_singleton, or_comm, eq_comm]
    · rw [List.mem_append, h.mem, List.mem_append]
    · refine List.pairwise_append.2
        ⟨h.order_append [x], List.pairwise_singleton _ _, fun y hy z hz => ?_⟩
      -- Whatever was reported before stands in `met`, and the new identifier comes after all of it.
      obtain rfl := List.mem_singleton.1 hz
      have hy : y ∈ met := (h.mem y).1 hy
      rw [List.idxOf_append_of_mem hy, List.idxOf_append_of_notMem hmet]
      exact Nat.lt_of_lt_of_le (List.idxOf_lt_length_of_mem hy) (Nat.le_add_right _ _)

/-- A step leaves the stack `bound` as it was and records occurrences that depend on the stack. -/
def Reports (step : Collector → Collector) (occurrences : List Ident → List Ident) : Prop :=
  ∀ ⦃c met⦄, c.Records met → (step c).bound = c.bound ∧
    (step c).Records (met ++ occurrences c.bound)

section

variable {step next : Collector → Collector} {occ occNext : List Ident → List Ident}

/-- The occurrences of `Reports` may be put in other words. -/
theorem Reports.congr {occ' : List Ident → List Ident} (h : Reports step occ)
    (hocc : ∀ bound, occ bound = occ' bound) : Reports step occ' :=
  funext hocc ▸ h

/-- Two steps, one after the other, report what both do. -/
private theorem Reports.comp (hstep : Reports step occ) (hnext : Reports next occNext) :
    Reports (fun c => next (step c)) (fun bound => occ bound ++ occNext bound) := by
  intro c met h
  obtain ⟨hbound, hrecords⟩ := hstep h
  obtain ⟨hbound', hrecords'⟩ := hnext hrecords
  rw [hbound] at hbound' hrecords'
  exact ⟨hbound', by rwa [← List.append_assoc]⟩

/-- A loop of steps over `parts` reports what each of them does. -/
theorem Reports.foldl {α : Type} {parts : List α} {step : Collector → α → Collector}
    {occ : List Ident → α → List Ident} (h : ∀ a ∈ parts, Reports (step · a) (occ · a)) :
    Reports (parts.foldl step) (fun bound => parts.flatMap (occ bound)) := by
  induction parts with
  | nil => exact fun c met hc => ⟨rfl, by simpa using hc⟩
  | cons a parts ih =>
    obtain ⟨hfirst, hrest⟩ := List.forall_mem_cons.1 h
    exact hfirst.comp (ih hrest)

/-- Below `Collector.enter` a step has more on the stack, and `Collector.leave` cuts the stack back
    to what it was. -/
theorem Reports.under (h : Reports step occ) (names : List Ident) :
    Reports (fun c => (step (c.enter names)).leave c.bound.length)
      (fun bound => occ (bound ++ names)) := by
  intro c met hc
  obtain ⟨hbound, hrecords⟩ := h (c := c.enter names) ⟨hc.seen, hc.mem, hc.order⟩
  refine ⟨?_, hrecords.seen, hrecords.mem, hrecords.order⟩
  show (step (c.enter names)).bound.take c.bound.length = c.bound
  rw [hbound]
  exact List.take_left

end

/-- `Collector.visit` records the free occurrences of the term. -/
theorem visit_reports (t : Term) : Reports (·.visit t) (t.occurrences ·) := by
  -- The collector also goes through patterns, so they need the induction hypothesis too.
  induction t using Term.induct_patterns with
  | app head args ihHead ihArgs =>
    simp only [visit, Term.visitList_eq_foldl, Term.occurrences, Term.occurrencesList_eq_flatMap]
    exact ihHead.comp (.foldl ihArgs)
  | list items ih | set items ih | tuple items ih | nary op items ih =>
    simp only [visit, Term.visitList_eq_foldl, Term.occurrences, Term.occurrencesList_eq_flatMap]
    exact .foldl ih
  | record fields ih =>
    simp only [visit, Term.visitFields_eq_foldl, Term.occurrences,
      Term.occurrencesFields_eq_flatMap]
    exact .foldl ih
  | ident name =>
    intro c met h
    show (c.meet name).bound = c.bound ∧ _
    by_cases hb : name ∈ c.bound
    · have hmeet : c.meet name = c := if_pos (.inl hb)
      simpa [visit, hmeet, Term.occurrences, hb] using h
    · refine ⟨?_, by simpa [visit, Term.occurrences, hb] using h.meet hb⟩
      unfold meet
      split <;> rfl
  | quant kind names types body ih =>
    refine (ih.under names).congr fun bound => body.occurrences_congr fun x => ?_
    rw [List.mem_append, List.mem_append, or_comm]
  | caseOf scrutinee arms ihScrutinee ihArms =>
    simp only [visit, Term.visitArms_eq_foldl, Term.occurrences, Term.occurrencesArms_eq_flatMap]
    refine ihScrutinee.comp (.foldl fun a ha => ?_)
    obtain ⟨ihPattern, ihResult⟩ := ihArms a ha
    refine (ihResult.under a.1.free).congr fun bound => a.2.occurrences_congr fun x => ?_
    have hmem : x ∈ a.1.free ↔ x ∈ a.1.occurrences [] := (ihPattern records_empty).2.mem x
    rw [List.mem_append, List.mem_append, hmem, or_comm]
  | typed term typ ih => exact ih
  | lit value => exact fun c met h => ⟨rfl, by simpa [visit, Term.occurrences] using h⟩

end Collector

namespace Term

/-! ## Free identifiers -/

/-- The collector of `Term.free` records the `occurrences` of the term. -/
theorem records_free (t : Term) : (Collector.visit {} t).Records (t.occurrences []) :=
  (Collector.visit_reports t Collector.records_empty).2

/-- `Term.free` has what is among the `occurrences`. -/
theorem mem_free (x : Ident) (t : Term) : x ∈ t.free ↔ x ∈ t.occurrences [] := t.records_free.mem x

/-- `Term.free` has no identifier twice. -/
theorem nodup_free (t : Term) : t.free.Nodup :=
  t.records_free.order.imp fun hlt heq => by
    rw [heq] at hlt
    exact Nat.lt_irrefl _ hlt

section

variable {x : Ident}

/-- `occurrencesList` has what is free in some item. -/
private theorem mem_occurrencesList {items : List Term} :
    x ∈ occurrencesList [] items ↔ ∃ a ∈ items, x ∈ a.free := by
  simp only [occurrencesList_eq_flatMap, List.mem_flatMap, mem_free]

/-- What is free in a `Term.app`. -/
@[simp] theorem mem_free_app {head : Term} {args : List Term} :
    x ∈ (app head args).free ↔ x ∈ head.free ∨ ∃ a ∈ args, x ∈ a.free := by
  rw [mem_free, mem_free, ← mem_occurrencesList]
  exact List.mem_append

/-- What is free in a `Term.list`. -/
@[simp] theorem mem_free_list {items : List Term} :
    x ∈ (list items).free ↔ ∃ a ∈ items, x ∈ a.free :=
  (mem_free x _).trans mem_occurrencesList

/-- What is free in a `Term.set`. -/
@[simp] theorem mem_free_set {items : List Term} :
    x ∈ (set items).free ↔ ∃ a ∈ items, x ∈ a.free :=
  (mem_free x _).trans mem_occurrencesList

/-- What is free in a `Term.record`; labels are not. -/
@[simp] theorem mem_free_record {fields : List (Ident × Term)} :
    x ∈ (record fields).free ↔ ∃ f ∈ fields, x ∈ f.2.free := by
  rw [mem_free]
  show x ∈ occurrencesFields [] fields ↔ _
  simp only [occurrencesFields_eq_flatMap, List.mem_flatMap, mem_free]

/-- What is free in a `Term.tuple`. -/
@[simp] theorem mem_free_tuple {items : List Term} :
    x ∈ (tuple items).free ↔ ∃ a ∈ items, x ∈ a.free :=
  (mem_free x _).trans mem_occurrencesList

/-- What is free in a `Term.ident`. -/
@[simp] theorem mem_free_ident {name : Ident} : x ∈ (ident name).free ↔ x = name :=
  (mem_free x _).trans List.mem_singleton

/-- What is free in a `Term.nary`. -/
@[simp] theorem mem_free_nary {op : Op} {args : List Term} :
    x ∈ (nary op args).free ↔ ∃ a ∈ args, x ∈ a.free :=
  (mem_free x _).trans mem_occurrencesList

/-- What is free in a `Term.quant`: what the body has, less what is bound. -/
@[simp] theorem mem_free_quant {kind : Quant} {bound : List Ident} {types : Option (List Typ)}
    {body : Term} :
    x ∈ (quant kind bound types body).free ↔ x ∈ body.free ∧ x ∉ bound := by
  rw [mem_free, mem_free, ← mem_occurrences_iff body bound x]
  show x ∈ body.occurrences (bound ++ []) ↔ _
  rw [List.append_nil]

/-- What is free in a `Term.caseOf`; each arm binds what its pattern has. -/
@[simp] theorem mem_free_caseOf {scrutinee : Term} {arms : List (Term × Term)} :
    x ∈ (caseOf scrutinee arms).free ↔
      x ∈ scrutinee.free ∨ ∃ a ∈ arms, x ∈ a.2.free ∧ x ∉ a.1.free := by
  rw [mem_free, mem_free]
  show x ∈ scrutinee.occurrences [] ++ occurrencesArms [] arms ↔ _
  rw [List.mem_append, occurrencesArms_eq_flatMap, List.mem_flatMap]
  refine or_congr_right (exists_congr fun a => and_congr_right fun _ => ?_)
  rw [mem_free, mem_free, List.append_nil, ← mem_occurrences_iff]

/-- What is free in a `Term.typed`. -/
@[simp] theorem mem_free_typed {term : Term} {typ : Typ} :
    x ∈ (typed term typ).free ↔ x ∈ term.free :=
  (mem_free x _).trans (mem_free x term).symm

/-- Nothing is free in a `Term.lit`. -/
@[simp] theorem mem_free_lit {value : Literal} : x ∉ (lit value).free :=
  fun h => List.not_mem_nil ((mem_free x _).1 h)

end

end Term

end Warrant
