import Mathlib.Data.List.Forall2
import Warrant.Data.Attempt

/-!
# Success of composed operations

When a computation that may fail succeeds, each of its steps did.  The lemmas here say so for the
ways in which steps are composed: one after the other, for each member of a list, and for operations
on a state that may stop midway.

An `Outcome` describes such an operation by a view of the state: when it succeeds, and what the view
is then.
-/

namespace Warrant

variable {ε σ α β : Type}

/-- `x >>= f` succeeds if `x` does and `f` does with what `x` gave. -/
theorem bind_eq_ok_iff {x : Except ε α} {f : α → Except ε β} {b : β} :
    (x >>= f) = .ok b ↔ ∃ a, x = .ok a ∧ f a = .ok b := by
  cases x with
  | error e =>
    constructor
    · intro h
      cases h
    · intro ⟨_, h, _⟩
      cases h
  | ok a =>
    constructor
    · intro h
      exact ⟨a, rfl, h⟩
    · intro ⟨a', ha, h⟩
      rw [Except.ok.inj ha]
      exact h

/-! ## Success -/

/-- A computation gives a result, and no `Except.error`. -/
def Succeeds (x : Except ε α) : Prop := ∃ a, x = .ok a

/-- `Except.ok` is a success. -/
theorem succeeds_ok (a : α) : Succeeds (.ok a : Except ε α) := ⟨a, rfl⟩

/-- `Except.error` is none. -/
theorem not_succeeds_error (e : ε) : ¬Succeeds (.error e : Except ε α) := fun ⟨_, h⟩ => nomatch h

/-- `bind_eq_ok_iff` for `Succeeds`. -/
theorem succeeds_bind_iff {x : Except ε α} {f : α → Except ε β} :
    Succeeds (x >>= f) ↔ ∃ a, x = .ok a ∧ Succeeds (f a) := by
  constructor
  · intro ⟨b, h⟩
    obtain ⟨a, ha, hb⟩ := bind_eq_ok_iff.1 h
    exact ⟨a, ha, b, hb⟩
  · intro ⟨a, ha, b, hb⟩
    exact ⟨b, bind_eq_ok_iff.2 ⟨a, ha, hb⟩⟩

/-- If `f` succeeds or not whatever `x` gave, `x >>= f` needs both. -/
theorem succeeds_bind_iff_and {x : Except ε α} {f : α → Except ε β} {P : Prop}
    (h : ∀ a, x = .ok a → (Succeeds (f a) ↔ P)) : Succeeds (x >>= f) ↔ Succeeds x ∧ P := by
  rw [succeeds_bind_iff]
  constructor
  · intro ⟨a, ha, hf⟩
    exact ⟨⟨a, ha⟩, (h a ha).1 hf⟩
  · intro ⟨⟨a, ha⟩, hP⟩
    exact ⟨a, ha, (h a ha).2 hP⟩

/-- What is only computed (`pure`) from the result of a step cannot fail. -/
theorem succeeds_bind_pure_iff {x : Except ε α} {f : α → β} :
    Succeeds (x >>= fun a => pure (f a)) ↔ Succeeds x :=
  (succeeds_bind_iff_and fun a _ => iff_true_intro (succeeds_ok (f a))).trans (and_iff_left trivial)

/-- `List.mapM` succeeds if `f` does for each member of the list. -/
theorem succeeds_mapM_iff {f : α → Except ε β} {as : List α} :
    Succeeds (as.mapM f) ↔ ∀ a ∈ as, Succeeds (f a) := by
  induction as with
  | nil => exact iff_of_true (succeeds_ok []) fun a ha => absurd ha List.not_mem_nil
  | cons a as ih =>
    rw [List.mapM_cons, List.forall_mem_cons, ← ih]
    exact succeeds_bind_iff_and fun b _ => succeeds_bind_pure_iff

/-- `List.forM` passes if the check `f` passes for each member of the list. -/
theorem forM_eq_ok_iff {f : α → Except ε PUnit} {as : List α} :
    as.forM f = .ok () ↔ ∀ a ∈ as, f a = .ok () := by
  induction as with
  | nil => exact iff_of_true rfl fun a ha => absurd ha List.not_mem_nil
  | cons a as ih =>
    show (f a >>= fun _ => as.forM f) = .ok () ↔ _
    rw [List.forall_mem_cons, ← ih, bind_eq_ok_iff]
    exact ⟨fun ⟨_, ha, has⟩ => ⟨ha, has⟩, fun ⟨ha, has⟩ => ⟨(), ha, has⟩⟩

/-- `List.mapM` gives the results for the members of the list, in order. -/
private theorem mapM_eq_ok_iff {f : α → Except ε β} {as : List α} {bs : List β} :
    as.mapM f = .ok bs ↔ List.Forall₂ (fun a b => f a = .ok b) as bs := by
  induction as generalizing bs with
  | nil =>
    rw [List.forall₂_nil_left_iff]
    exact ⟨fun h => (Except.ok.inj h).symm, fun h => h ▸ rfl⟩
  | cons a as ih =>
    -- The first result is that of `f`, and the others are the results for the tail.
    rw [List.mapM_cons, List.forall₂_cons_left_iff, bind_eq_ok_iff]
    refine exists_congr fun b => ?_
    rw [bind_eq_ok_iff]
    constructor
    · rintro ⟨hb, bs', hbs', h⟩
      exact ⟨bs', hb, ih.1 hbs', (Except.ok.inj h).symm⟩
    · rintro ⟨bs', hb, hbs', rfl⟩
      exact ⟨hb, bs', ih.2 hbs', rfl⟩

/-- `List.mapM` gives the result for a member at the position of that member. -/
theorem getElem?_of_mapM_eq_ok {f : α → Except ε β} {as : List α} {bs : List β}
    (h : as.mapM f = .ok bs) {i : Nat} {a : α} (hi : as[i]? = some a) :
    ∃ b, bs[i]? = some b ∧ f a = .ok b := by
  obtain ⟨hlt, rfl⟩ := List.getElem?_eq_some_iff.1 hi
  have hbs := mapM_eq_ok_iff.1 h
  have hlt' : i < bs.length := hbs.length_eq ▸ hlt
  exact ⟨bs[i], List.getElem?_eq_getElem hlt', hbs.get hlt hlt'⟩

/-- Each item on the left of a `List.Forall₂` has one on the right. -/
theorem exists_right_of_forall₂ {P : α → β → Prop} {as : List α} {bs : List β}
    (h : List.Forall₂ P as bs) {a : α} (ha : a ∈ as) : ∃ b ∈ bs, P a b := by
  induction h with
  | nil => cases ha
  | @cons a' b' as' bs' hfirst _ ih =>
    obtain rfl | ha := List.mem_cons.1 ha
    · exact ⟨b', List.mem_cons_self, hfirst⟩
    · obtain ⟨b, hb, hab⟩ := ih ha
      exact ⟨b, List.mem_cons_of_mem b' hb, hab⟩

/-- Each item on the right of a `List.Forall₂` has one on the left. -/
theorem exists_left_of_forall₂ {P : α → β → Prop} {as : List α} {bs : List β}
    (h : List.Forall₂ P as bs) {b : β} (hb : b ∈ bs) : ∃ a ∈ as, P a b :=
  exists_right_of_forall₂ h.flip hb

/-- The result for each member is in what `List.mapM` gives. -/
theorem exists_mem_of_mapM_eq_ok {f : α → Except ε β} {as : List α} {bs : List β}
    (h : as.mapM f = .ok bs) {a : α} (ha : a ∈ as) : ∃ b ∈ bs, f a = .ok b :=
  exists_right_of_forall₂ (mapM_eq_ok_iff.1 h) ha

/-- What `List.mapM` gives is the result for some member. -/
theorem exists_of_mem_of_mapM_eq_ok {f : α → Except ε β} {as : List α} {bs : List β}
    (h : as.mapM f = .ok bs) {b : β} (hb : b ∈ bs) : ∃ a ∈ as, f a = .ok b :=
  exists_left_of_forall₂ (mapM_eq_ok_iff.1 h) hb

/-- What holds of each item and its result relates a list and its `List.mapM`. -/
theorem forall₂_of_mapM_eq_ok {f : α → Except ε β} {as : List α} {bs : List β} {P : α → β → Prop}
    (h : as.mapM f = .ok bs) (hP : ∀ a ∈ as, ∀ b, f a = .ok b → P a b) : List.Forall₂ P as bs := by
  have hbs : List.Forall₂ (fun a b => a ∈ as ∧ f a = .ok b) as bs :=
    (List.forall₂_and_left ..).2 ⟨fun a ha => ha, mapM_eq_ok_iff.1 h⟩
  exact hbs.imp fun a b hab => hP a hab.1 b hab.2

/-- What can be read off an item (`view`) and off its result (`view'`) is the same for the lists. -/
theorem map_eq_map_of_mapM_eq_ok {γ : Type} {f : α → Except ε β} {as : List α} {bs : List β}
    {view : α → γ} {view' : β → γ} (h : as.mapM f = .ok bs)
    (hview : ∀ a b, f a = .ok b → view' b = view a) : bs.map view' = as.map view := by
  have hpairs := forall₂_of_mapM_eq_ok h fun a _ b => hview a b
  rw [← List.forall₂_eq_eq_eq, List.forall₂_map_left_iff, List.forall₂_map_right_iff]
  exact hpairs.flip

/-- `List.mapM` gives as many results as there are items. -/
theorem length_of_mapM_eq_ok {f : α → Except ε β} {as : List α} {bs : List β}
    (h : as.mapM f = .ok bs) : bs.length = as.length :=
  (mapM_eq_ok_iff.1 h).length_eq.symm

/-! ## Attempts

An attempt is described by when it succeeds and what a view of the state is afterwards, if it
does. -/

section

variable {V : Type}

/-- An attempt succeeds exactly if `ok` holds, and then leaves a state whose `view` is `next`. -/
structure Outcome (view : σ → V) (attempt : Except ε Unit × σ) (ok : Prop) (next : V) : Prop where
  ok_iff : attempt.1 = .ok () ↔ ok
  view_eq : attempt.1 = .ok () → view attempt.2 = next

/-- A list of keys that is part of a view and to which `add` appends. -/
structure KeyLog (V κ : Type) where
  keys : V → List κ
  add : V → List κ → V
  keys_add (v : V) (ks : List κ) : keys (add v ks) = keys v ++ ks
  add_nil (v : V) : add v [] = v
  add_add (v : V) (ks ks' : List κ) : add (add v ks) ks' = add v (ks ++ ks')

namespace Outcome

variable {view : σ → V} {attempt : Except ε Unit × σ} {ok ok' : Prop} {v v' : V}

/-- The condition of an `Outcome` may be put in other words. -/
theorem congr (h : Outcome view attempt ok v) (hok : ok ↔ ok') : Outcome view attempt ok' v :=
  ⟨h.ok_iff.trans hok, h.view_eq⟩

/-- An attempt that does nothing succeeds. -/
theorem skip (s : σ) : Outcome view ((.ok (), s) : Except ε Unit × σ) True (view s) :=
  ⟨iff_of_true rfl trivial, fun _ => rfl⟩

/-- A failure has the `Outcome` of any condition that does not hold. -/
theorem failure {e : ε} {s : σ} (hok : ¬ok) :
    Outcome view ((.error e, s) : Except ε Unit × σ) ok v :=
  ⟨iff_of_false (fun h => nomatch h) hok, fun h => nomatch h⟩

/-- The `Outcome` of an attempt that makes a check `x` and fails if the check does. -/
theorem check {x : Except ε α} {good : Prop} (hx : Succeeds x ↔ good)
    (hfail : ∀ e, x = .error e → attempt.1 = .error e)
    (hgo : ∀ a, x = .ok a → Outcome view attempt ok v) : Outcome view attempt (good ∧ ok) v := by
  cases x with
  | error e =>
    have hno : ¬attempt.1 = .ok () := by
      rw [hfail e rfl]
      exact fun h => nomatch h
    exact ⟨iff_of_false hno fun h => not_succeeds_error e (hx.2 h.1), fun h => absurd h hno⟩
  | ok a => exact (hgo a rfl).congr (iff_and_self.2 fun _ => hx.1 (succeeds_ok a))

/-- `attemptThen` succeeds if both attempts do. -/
theorem andThen {next : σ → Except ε Unit × σ} (h : Outcome view attempt ok v)
    (hnext : ∀ s, ok → view s = v → Outcome view (next s) ok' v') :
    Outcome view (attemptThen attempt next) (ok ∧ ok') v' := by
  obtain ⟨outcome, s⟩ := attempt
  cases outcome with
  | error e => exact failure fun hok => nomatch h.ok_iff.2 hok.1
  | ok _ =>
    exact (hnext s (h.ok_iff.1 rfl) (h.view_eq rfl)).congr (iff_and_self.2 fun _ => h.ok_iff.1 rfl)

/-- `attemptEach` with a step that logs the key of each item succeeds if every item is good and no
    key comes up twice or was there before. -/
theorem each {κ : Type} (log : KeyLog V κ) (key : α → κ) (good : V → α → Prop)
    {step : σ → α → Except ε Unit × σ} (hgood : ∀ v ks a, good (log.add v ks) a ↔ good v a)
    (hstep : ∀ s a, Outcome view (step s a)
      (good (view s) a ∧ key a ∉ log.keys (view s)) (log.add (view s) [key a]))
    (s : σ) (as : List α) (hs : (log.keys (view s)).Nodup) :
    Outcome view (attemptEach step s as)
      ((∀ a ∈ as, good (view s) a) ∧ (log.keys (view s) ++ as.map key).Nodup)
      (log.add (view s) (as.map key)) := by
  -- Each item is judged by a view that has logged the keys of the items before it.
  induction as generalizing s with
  | nil =>
    have hnil : (∀ a ∈ [], good (view s) a) ∧ (log.keys (view s) ++ [].map key).Nodup :=
      ⟨fun a ha => absurd ha List.not_mem_nil, by simpa using hs⟩
    exact ⟨iff_of_true rfl hnil, fun _ => (log.add_nil _).symm⟩
  | cons a as ih =>
    have hcons : attemptEach step s (a :: as) =
        attemptThen (step s a) fun s => attemptEach step s as := by
      rw [attemptEach, attemptThen.eq_def]
    have hsplit : log.keys (view s) ++ (a :: as).map key =
        log.keys (log.add (view s) [key a]) ++ as.map key := by
      simp [log.keys_add]
    have hfresh : (log.keys (log.add (view s) [key a])).Nodup ↔ key a ∉ log.keys (view s) := by
      rw [log.keys_add, List.nodup_append]
      constructor
      · intro h hm
        exact h.2.2 _ hm _ List.mem_cons_self rfl
      · intro h
        refine ⟨hs, List.nodup_cons.2 ⟨List.not_mem_nil, .nil⟩, fun b hb c hc heq => h ?_⟩
        rwa [← List.mem_singleton.1 hc, ← heq]
    -- Logging a key does not change which of the other items are good.
    have hrest : ∀ s', good (view s) a ∧ key a ∉ log.keys (view s) →
        view s' = log.add (view s) [key a] →
        Outcome view (attemptEach step s' as)
          ((∀ b ∈ as, good (view s) b) ∧ (log.keys (view s) ++ (a :: as).map key).Nodup)
          (log.add (view s) ((a :: as).map key)) := by
      intro s' hok hs'
      have hih := ih s' (by rw [hs']; exact hfresh.2 hok.2)
      rw [hs', ← hsplit, log.add_add] at hih
      exact hih.congr (and_congr_left' (forall₂_congr fun b _ => hgood (view s) [key a] b))
    rw [hcons]
    refine ((hstep s a).andThen hrest).congr ?_
    rw [List.forall_mem_cons]
    constructor
    · intro ⟨⟨ha, _⟩, has, hnodup⟩
      exact ⟨⟨ha, has⟩, hnodup⟩
    · intro ⟨⟨ha, has⟩, hnodup⟩
      rw [hsplit] at hnodup
      exact ⟨⟨ha, hfresh.1 (List.nodup_append.1 hnodup).1⟩, has, hsplit ▸ hnodup⟩

end Outcome

end

end Warrant
