import Warrant.Proofs.Assoc
import Warrant.Proofs.Terms

/-!
# What terms denote

An `Interpretation` gives a meaning to every constructor of terms except identifiers, which an
environment gives a value.  Binders rebind names: a quantifier is interpreted through the function
that takes values for its binders, by position, to what the body denotes, and a case arm through the
function that takes values for the identifiers of its pattern to what its result denotes.  A
quantifier that binds a name twice gives it the later value.

The interpretation of a quantifier sees neither its names nor its body, so it cannot tell apart what
differs in the names of binders only.  Patterns are data for the interpretation of a case split.

* `denote_congr`: what a term denotes depends on the values of its free identifiers only.
-/

namespace Warrant

variable {D : Type}

/-! ## Environments -/

/-- The values of identifiers, of which `Term.denote` takes those that occur free. -/
abbrev Env (D : Type) := Ident → D

namespace Env

/-- The environment below the bindings `frames`, the innermost of which comes first. -/
def under (e : Env D) (frames : List (Ident × D)) : Env D := fun x => (frames.lookup x).getD (e x)

/-- The values that `v` has for the first `n` positions, the last first. -/
def values (n : Nat) (v : Nat → D) : List D := ((List.range n).map v).reverse

/-- Bind the `names` to the values that `v` has for their positions, one after the other, so that of
    equal names the last counts. -/
def bind (e : Env D) (names : List Ident) (v : Nat → D) : Env D :=
  e.under (names.reverse.zip (values names.length v))

/-- Bind the `names` of a pattern to the values that `v` has for them. -/
def bindPattern (e : Env D) (names : List Ident) (v : Env D) : Env D :=
  e.under (names.zip (names.map v))

/-- `values n v` are `n` values. -/
@[simp] theorem length_values (n : Nat) (v : Nat → D) : (values n v).length = n := by
  simp [values]

/-- Bindings further in come first in `under`. -/
theorem under_under (e : Env D) (outer inner : List (Ident × D)) :
    (e.under outer).under inner = e.under (inner ++ outer) := by
  funext x
  simp only [under, List.lookup_append]
  cases inner.lookup x <;> rfl

/-- Below the same bindings environments agree on a name that is bound there or on which they agreed
    before. -/
private theorem under_congr {e₁ e₂ : Env D} {names : List Ident} {vals : List D} {x : Ident}
    (hlen : names.length = vals.length) (h : x ∉ names → e₁ x = e₂ x) :
    e₁.under (names.zip vals) x = e₂.under (names.zip vals) x := by
  unfold under
  cases hl : (names.zip vals).lookup x with
  | some d => rfl
  | none =>
    have hx := lookup_eq_none_iff_not_mem.1 hl
    rw [List.map_fst_zip (Nat.le_of_eq hlen)] at hx
    exact h hx

/-- `under` bindings a name that is not bound keeps its value. -/
theorem under_of_not_mem {e : Env D} {frames : List (Ident × D)} {x : Ident}
    (h : x ∉ frames.map Prod.fst) : e.under frames x = e x := by
  rw [under, lookup_eq_none_iff_not_mem.2 h]
  rfl

/-- `under` bindings of different names a name has the value that it is bound to. -/
theorem under_of_mem {e : Env D} {frames : List (Ident × D)} (hnodup : (frames.map Prod.fst).Nodup)
    {x : Ident} {d : D} (h : (x, d) ∈ frames) : e.under frames x = d := by
  rw [under, lookup_of_mem hnodup h]
  rfl

end Env

/-! ## Interpretations -/

/-- The meaning of the constructors of `Term` over a domain `D`. -/
structure Interpretation (D : Type) where
  app : D → List D → D
  list : List D → D
  set : List D → D
  record : List (Ident × D) → D
  tuple : List D → D
  nary : Op → List D → D
  /-- A quantifier of a kind, with the types and the number of its binders, given what the body
      denotes for values of these. -/
  quant : Quant → Option (List Typ) → Nat → ((Nat → D) → D) → D
  /-- A split, with each pattern and what the arm denotes for values of the pattern's
      identifiers. -/
  caseOf : D → List (Term × (Env D → D)) → D
  typed : D → Typ → D
  lit : Literal → D

namespace Term

mutual
/-- What a term denotes under the interpretation `I` in the environment `e`. -/
def denote (I : Interpretation D) (e : Env D) : Term → D
  | .app head args => I.app (head.denote I e) (denoteList I e args)
  | .list items => I.list (denoteList I e items)
  | .set items => I.set (denoteList I e items)
  | .record fields => I.record (denoteFields I e fields)
  | .tuple items => I.tuple (denoteList I e items)
  | .ident name => e name
  | .nary op args => I.nary op (denoteList I e args)
  | .quant kind bound types body =>
    I.quant kind types bound.length fun v => body.denote I (e.bind bound v)
  | .caseOf scrutinee arms => I.caseOf (scrutinee.denote I e) (denoteArms I e arms)
  | .typed term typ => I.typed (term.denote I e) typ
  | .lit value => I.lit value
/-- `denote` for each of several terms. -/
def denoteList (I : Interpretation D) (e : Env D) : List Term → List D
  | [] => []
  | t :: ts => t.denote I e :: denoteList I e ts
/-- `denote` for the values of a `Term.record`. -/
def denoteFields (I : Interpretation D) (e : Env D) : List (Ident × Term) → List (Ident × D)
  | [] => []
  | (label, t) :: fields => (label, t.denote I e) :: denoteFields I e fields
/-- `denote` for the results of case arms, for each choice of values for the identifiers of the
    pattern. -/
def denoteArms (I : Interpretation D) (e : Env D) : List (Term × Term) → List (Term × (Env D → D))
  | [] => []
  | (pattern, t) :: arms =>
    (pattern, fun v => t.denote I (e.bindPattern pattern.free v)) :: denoteArms I e arms
end

/-- `denoteList` is a `List.map`. -/
theorem denoteList_eq_map (I : Interpretation D) (e : Env D) (ts : List Term) :
    denoteList I e ts = ts.map (denote I e) := by
  induction ts with
  | nil => rfl
  | cons t ts ih => exact congrArg (t.denote I e :: ·) ih

/-- `denoteFields` is a `List.map` that keeps the labels. -/
theorem denoteFields_eq_map (I : Interpretation D) (e : Env D) (fields : List (Ident × Term)) :
    denoteFields I e fields = fields.map fun f => (f.1, f.2.denote I e) := by
  induction fields with
  | nil => rfl
  | cons f fields ih => exact congrArg ((f.1, f.2.denote I e) :: ·) ih

/-- `denoteArms` is a `List.map` that keeps the patterns. -/
theorem denoteArms_eq_map (I : Interpretation D) (e : Env D) (arms : List (Term × Term)) :
    denoteArms I e arms = arms.map fun a =>
      (a.1, fun v => a.2.denote I (e.bindPattern a.1.free v)) := by
  induction arms with
  | nil => rfl
  | cons a arms ih =>
    exact congrArg ((a.1, fun v => a.2.denote I (e.bindPattern a.1.free v)) :: ·) ih

/-- What a term denotes depends on the values of its `free` identifiers only. -/
theorem denote_congr (I : Interpretation D) {e₁ e₂ : Env D} (t : Term)
    (h : ∀ x ∈ t.free, e₁ x = e₂ x) : t.denote I e₁ = t.denote I e₂ := by
  -- Below binders the environments differ, but agree on what is bound there.
  induction t using induct generalizing e₁ e₂ with
  | app head args ihHead ihArgs =>
    have hhead := ihHead fun x hx => h x (mem_free_app.2 (.inl hx))
    have hargs : args.map (denote I e₁) = args.map (denote I e₂) :=
      List.map_congr_left fun a ha => ihArgs a ha fun x hx =>
        h x (mem_free_app.2 (.inr ⟨a, ha, hx⟩))
    rw [denote, denote, denoteList_eq_map, denoteList_eq_map, hhead, hargs]
  | list items ih | set items ih | tuple items ih | nary op items ih =>
    have hitems : items.map (denote I e₁) = items.map (denote I e₂) :=
      List.map_congr_left fun a ha => ih a ha fun x hx => h x (by simpa using ⟨a, ha, hx⟩)
    rw [denote, denote, denoteList_eq_map, denoteList_eq_map, hitems]
  | record fields ih =>
    rw [denote, denote, denoteFields_eq_map, denoteFields_eq_map]
    exact congrArg I.record (List.map_congr_left fun f hf =>
      congrArg (Prod.mk f.1) (ih f hf fun x hx => h x (mem_free_record.2 ⟨f, hf, hx⟩)))
  | ident name => exact h name (mem_free_ident.2 rfl)
  | quant kind bound types body ih =>
    rw [denote, denote]
    refine congrArg (I.quant kind types bound.length) (funext fun v => ih fun x hx => ?_)
    exact Env.under_congr (by simp) fun hb =>
      h x (mem_free_quant.2 ⟨hx, fun hm => hb (List.mem_reverse.2 hm)⟩)
  | caseOf scrutinee arms ihScrutinee ihArms =>
    have hscrutinee := ihScrutinee fun x hx => h x (mem_free_caseOf.2 (.inl hx))
    rw [denote, denote, denoteArms_eq_map, denoteArms_eq_map, hscrutinee]
    refine congrArg (I.caseOf _) (List.map_congr_left fun a ha => ?_)
    refine congrArg (Prod.mk a.1) (funext fun v => ihArms a ha fun x hx => ?_)
    exact Env.under_congr (by simp) fun hp => h x (mem_free_caseOf.2 (.inr ⟨a, ha, hx, hp⟩))
  | typed term typ ih => rw [denote, denote, ih fun x hx => h x (mem_free_typed.2 hx)]
  | lit value => rfl

end Term

/-- The environment in which the identifiers with a replacement in `σ` have the values of their
    replacements. -/
def Assignment.env (σ : Assignment) (I : Interpretation D) (e : Env D) : Env D := fun x =>
  match σ.get? x with
  | some r => r.denote I e
  | none => e x

end Warrant
