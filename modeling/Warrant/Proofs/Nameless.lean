import Warrant.Proofs.Denotation

/-!
# Nameless terms

In a nameless term a bound identifier is the number of binders between it and its own.  Two terms
have the same nameless form exactly if they differ in the names of quantifier binders only, and
replacing free identifiers in a nameless term cannot capture anything: `t.nameless ρ []` is the
nameless form of `t` with `ρ x` for every free `x`.

Nameless terms are a domain of their own: `namelessModel` interprets a term as its nameless form at
each depth of binders (`denote_namelessModel`).  So terms that denote the same under all
interpretations have the same nameless form.
-/

namespace Warrant

/-- A term without names for bound identifiers, the values of `namelessModel`. -/
inductive Nameless where
  | app (head : Nameless) (args : List Nameless)
  | list (items : List Nameless)
  | set (items : List Nameless)
  | record (fields : List (Ident × Nameless))
  | tuple (items : List Nameless)
  | free (name : Ident)
  /-- An identifier with this many binders between it and the one that binds it. -/
  | bound (index : Nat)
  | nary (op : Op) (args : List Nameless)
  | quant (kind : Quant) (binders : Nat) (types : Option (List Typ)) (body : Nameless)
  | caseOf (scrutinee : Nameless) (arms : List (Term × Nameless))
  | typed (term : Nameless) (typ : Typ)
  | lit (value : Literal)

namespace Term

mutual
/-- The nameless form of a term below the binders in `scope`, the innermost first, with `ρ` for the
    free identifiers. -/
def nameless (ρ : Ident → Nameless) (scope : List Ident) : Term → Nameless
  | .app head args => .app (head.nameless ρ scope) (namelessList ρ scope args)
  | .list items => .list (namelessList ρ scope items)
  | .set items => .set (namelessList ρ scope items)
  | .record fields => .record (namelessFields ρ scope fields)
  | .tuple items => .tuple (namelessList ρ scope items)
  | .ident name =>
    match scope.idxOf? name with
    | some i => .bound i
    | none => ρ name
  | .nary op args => .nary op (namelessList ρ scope args)
  | .quant kind bound types body =>
    .quant kind bound.length types (body.nameless ρ (bound.reverse ++ scope))
  | .caseOf scrutinee arms => .caseOf (scrutinee.nameless ρ scope) (namelessArms ρ scope arms)
  | .typed term typ => .typed (term.nameless ρ scope) typ
  | .lit value => .lit value
/-- `nameless` for each of several terms. -/
def namelessList (ρ : Ident → Nameless) (scope : List Ident) : List Term → List Nameless
  | [] => []
  | t :: ts => t.nameless ρ scope :: namelessList ρ scope ts
/-- `nameless` for the values of a `Term.record`. -/
def namelessFields (ρ : Ident → Nameless) (scope : List Ident) :
    List (Ident × Term) → List (Ident × Nameless)
  | [] => []
  | (label, t) :: fields => (label, t.nameless ρ scope) :: namelessFields ρ scope fields
/-- `nameless` for the results of case arms, each below the identifiers of its pattern. -/
def namelessArms (ρ : Ident → Nameless) (scope : List Ident) :
    List (Term × Term) → List (Term × Nameless)
  | [] => []
  | (pattern, t) :: arms =>
    (pattern, t.nameless ρ (pattern.free ++ scope)) :: namelessArms ρ scope arms
end

/-- `namelessList` is a `List.map`. -/
theorem namelessList_eq_map (ρ : Ident → Nameless) (scope : List Ident) (ts : List Term) :
    namelessList ρ scope ts = ts.map (nameless ρ scope) := by
  induction ts with
  | nil => rfl
  | cons t ts ih => exact congrArg (t.nameless ρ scope :: ·) ih

/-- `namelessFields` is a `List.map` that keeps the labels. -/
theorem namelessFields_eq_map (ρ : Ident → Nameless) (scope : List Ident)
    (fields : List (Ident × Term)) :
    namelessFields ρ scope fields = fields.map fun f => (f.1, f.2.nameless ρ scope) := by
  induction fields with
  | nil => rfl
  | cons f fields ih => exact congrArg ((f.1, f.2.nameless ρ scope) :: ·) ih

/-- `namelessArms` is a `List.map` that keeps the patterns. -/
theorem namelessArms_eq_map (ρ : Ident → Nameless) (scope : List Ident)
    (arms : List (Term × Term)) :
    namelessArms ρ scope arms = arms.map fun a => (a.1, a.2.nameless ρ (a.1.free ++ scope)) := by
  induction arms with
  | nil => rfl
  | cons a arms ih => exact congrArg ((a.1, a.2.nameless ρ (a.1.free ++ scope)) :: ·) ih

end Term

/-- What a free identifier becomes: the `nameless` form of its replacement, if `σ` has one. -/
def Assignment.nameless (σ : Assignment) (x : Ident) : Nameless :=
  match σ.get? x with
  | some r => r.nameless .free []
  | none => .free x

/-! ## Nameless terms as an interpretation -/

/-- The binder that is the `level`-th from the outside, seen from below `depth` binders. -/
def boundAt (level depth : Nat) : Nameless := .bound (depth - 1 - level)

/-- Terms denote their `nameless` forms, which depend on the number of binders around them. -/
def namelessModel : Interpretation (Nat → Nameless) where
  app head args := fun depth => .app (head depth) (args.map (· depth))
  list items := fun depth => .list (items.map (· depth))
  set items := fun depth => .set (items.map (· depth))
  record fields := fun depth => .record (fields.map fun f => (f.1, f.2 depth))
  tuple items := fun depth => .tuple (items.map (· depth))
  nary op args := fun depth => .nary op (args.map (· depth))
  quant kind types n body := fun depth =>
    .quant kind n types (body (fun i => boundAt (depth + i)) (depth + n))
  caseOf scrutinee arms := fun depth =>
    .caseOf (scrutinee depth) (arms.map fun a =>
      let n := a.1.free.length
      (a.1, a.2 (fun x => boundAt (depth + (n - 1 - a.1.free.idxOf x))) (depth + n)))
  typed term typ := fun depth => .typed (term depth) typ
  lit value := fun _ => .lit value

/-- The values of `n` binders when `base` binders are around them. -/
def levelValues (base n : Nat) : List (Nat → Nameless) := Env.values n fun i => boundAt (base + i)

/-- `levelValues base n` are `n` values. -/
@[simp] theorem length_levelValues (base n : Nat) : (levelValues base n).length = n :=
  Env.length_values n _

/-- `levelValues` of binders further in are put in front. -/
private theorem levelValues_append (base m n : Nat) :
    levelValues (base + m) n ++ levelValues base m = levelValues base (m + n) := by
  simp only [levelValues, Env.values, List.range_add, List.map_append, List.reverse_append,
    List.map_map]
  congr 2
  refine List.map_congr_left fun i _ => ?_
  show boundAt (base + m + i) = boundAt (base + (m + i))
  rw [Nat.add_assoc]

/-- From the innermost place `levelValues` number the binders from 0 on. -/
private theorem levelValues_getElem? {base n i : Nat} (h : i < n) :
    (levelValues base n)[i]? = some (boundAt (base + (n - 1 - i))) := by
  have hr : i < ((List.range n).map fun i => boundAt (base + i)).length := by simpa using h
  rw [levelValues, Env.values, List.getElem?_reverse hr]
  simp only [List.length_map, List.length_range, List.getElem?_map]
  rw [List.getElem?_range (by omega)]
  rfl

/-- The values of the identifiers of a pattern, by name and as `levelValues`. -/
private theorem map_boundAt_idxOf (base : Nat) {names : List Ident} (h : names.Nodup) :
    names.map (fun x => boundAt (base + (names.length - 1 - names.idxOf x))) =
      levelValues base names.length := by
  apply List.ext_getElem?
  intro i
  by_cases hi : i < names.length
  · rw [levelValues_getElem? hi, List.getElem?_map, List.getElem?_eq_getElem hi, Option.map_some]
    rw [h.idxOf_getElem i hi]
  · rw [List.getElem?_eq_none (by simpa using hi), List.getElem?_eq_none (by simpa using hi)]

/-- The environment in which free identifiers denote what `ρ` says, below the binders in `scope` and
    `base` others. -/
def namelessEnv (ρ : Ident → Nameless) (base : Nat) (scope : List Ident) : Env (Nat → Nameless) :=
  Env.under (fun x _ => ρ x) (scope.zip (levelValues base scope.length))

/-- Binders further in are added to the scope of `namelessEnv`. -/
private theorem namelessEnv_under (ρ : Ident → Nameless) (base : Nat) (names scope : List Ident) :
    (namelessEnv ρ base scope).under (names.zip (levelValues (base + scope.length) names.length)) =
      namelessEnv ρ base (names ++ scope) := by
  rw [namelessEnv, namelessEnv, Env.under_under, ← List.zip_append (by simp), levelValues_append,
    List.length_append, Nat.add_comm names.length]

/-- In `namelessEnv` an identifier denotes its nameless form. -/
private theorem namelessEnv_apply (ρ : Ident → Nameless) (base : Nat) (scope : List Ident)
    (x : Ident) :
    namelessEnv ρ base scope x (base + scope.length) = (Term.ident x).nameless ρ scope := by
  rw [namelessEnv, Env.under, lookup_zip, Term.nameless]
  cases hidx : scope.idxOf? x with
  | none => rfl
  | some i =>
    have hi : i < scope.length := (List.idxOf?_eq_some_iff.1 hidx).1
    rw [Option.bind_some, levelValues_getElem? hi, Option.getD_some, boundAt]
    -- The level of the binder, counted from the inside, is its position in the scope.
    congr 1
    omega

/-- In `namelessModel` a term denotes its `nameless` form. -/
theorem denote_namelessModel (ρ : Ident → Nameless) (base : Nat) (scope : List Ident) (t : Term) :
    t.denote namelessModel (namelessEnv ρ base scope) (base + scope.length) =
      t.nameless ρ scope := by
  induction t using Term.induct generalizing scope with
  | app head args ihHead ihArgs =>
    rw [Term.denote, Term.nameless, Term.denoteList_eq_map, Term.namelessList_eq_map,
      ← ihHead scope, ← List.map_congr_left fun a ha => ihArgs a ha scope]
    simp only [namelessModel, List.map_map]
    rfl
  | list items ih | set items ih | tuple items ih | nary op items ih =>
    rw [Term.denote, Term.nameless, Term.denoteList_eq_map, Term.namelessList_eq_map,
      ← List.map_congr_left fun a ha => ih a ha scope]
    simp only [namelessModel, List.map_map]
    rfl
  | record fields ih =>
    rw [Term.denote, Term.nameless, Term.denoteFields_eq_map, Term.namelessFields_eq_map,
      ← List.map_congr_left fun f hf => congrArg (Prod.mk f.1) (ih f hf scope)]
    simp only [namelessModel, List.map_map]
    rfl
  | ident name => exact namelessEnv_apply ρ base scope name
  | quant kind bound types body ih =>
    -- The binders of the quantifier take the levels from the depth of the quantifier on.
    have hbind : (namelessEnv ρ base scope).bind bound
        (fun i => boundAt (base + scope.length + i)) =
          namelessEnv ρ base (bound.reverse ++ scope) := by
      rw [← namelessEnv_under, List.length_reverse]
      rfl
    have hbody := ih (bound.reverse ++ scope)
    rw [List.length_append, List.length_reverse, Nat.add_comm bound.length, ← Nat.add_assoc,
      ← hbind] at hbody
    rw [Term.denote, Term.nameless, ← hbody]
    rfl
  | caseOf scrutinee arms ihScrutinee ihArms =>
    rw [Term.denote, Term.nameless, Term.denoteArms_eq_map, Term.namelessArms_eq_map,
      ← ihScrutinee scope]
    simp only [namelessModel, List.map_map]
    congr 1
    refine List.map_congr_left fun a ha => congrArg (Prod.mk a.1) ?_
    -- So do the identifiers of a pattern, of which the first is the innermost.
    have hbind : (namelessEnv ρ base scope).bindPattern a.1.free
        (fun x => boundAt (base + scope.length + (a.1.free.length - 1 - a.1.free.idxOf x))) =
          namelessEnv ρ base (a.1.free ++ scope) := by
      rw [Env.bindPattern, map_boundAt_idxOf _ (Term.nodup_free a.1), namelessEnv_under]
    have hbody := ihArms a ha (a.1.free ++ scope)
    rw [List.length_append, Nat.add_comm a.1.free.length, ← Nat.add_assoc, ← hbind] at hbody
    exact hbody
  | typed term typ ih => rw [Term.denote, Term.nameless, ← ih scope]; rfl
  | lit value => rfl

end Warrant
