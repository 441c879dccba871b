import Warrant.Proofs.TermReader
import Warrant.Proofs.Terms

/-!
# Terms with the same text

Texts of terms are ambiguous in two places.  The result of an arm is printed without brackets, so
after a result that is a case split itself the further arms read as arms of that split.  And a
number annotated as an integer has the text of the integer, unless it stands as an operand, in
brackets of its own.

`Term.reading` is the term that the text of a term is read as: it moves such arms to the inner split
(`Term.extend`) and makes such numbers integers.  Readings are plain, so they can be read back from
their text, which is that of the term.

* `Term.isReading_readAs`: the reading of a regular term is regular and plain and has the text of
  the term.
* `Term.render_eq_render_iff`: regular terms have the same text exactly if they have the same
  reading.
-/

namespace Warrant

namespace Term

/-! ## The reading of a term -/

mutual
/-- A term with the arms `further` at the end of its text. -/
def extend (further : List (Term × Term)) : Term → Term
  | .quant kind bound types body => .quant kind bound types (body.extend further)
  | .caseOf scrutinee arms => .caseOf scrutinee (extendArms further arms)
  | t => t
/-- Arms with the arms `further` after them.  They go to the last result, if that is `isOpen`. -/
def extendArms (further : List (Term × Term)) : List (Term × Term) → List (Term × Term)
  | [] => further
  | (pattern, result) :: arms =>
    if arms.isEmpty && result.isOpen then [(pattern, result.extend further)]
    else (pattern, result) :: extendArms further arms
end

mutual
/-- The term that the text of a term is read as, where it stands as it is (`bare`) or as an
    operand. -/
def readAs (bare : Bool) : Term → Term
  | .app head args => .app (head.readAs false) (readAllAs false args)
  | .list items => .list (readAllAs true items)
  | .set items => .set (readAllAs true items)
  | .record fields => .record (readFieldsAs fields)
  | .tuple items => .tuple (readAllAs true items)
  | .ident name => .ident name
  | .nary op args => .nary op (readAllAs false args)
  | .quant kind bound types body => .quant kind bound types (body.readAs true)
  | .caseOf scrutinee arms => .caseOf (scrutinee.readAs true) (readArmsAs arms)
  | .typed term typ =>
    if bare then annotated (term.readAs true) typ else .typed (term.readAs true) typ
  | .lit value => .lit value
/-- `readAs` of several terms. -/
def readAllAs (bare : Bool) : List Term → List Term
  | [] => []
  | t :: ts => t.readAs bare :: readAllAs bare ts
/-- `readAs` of the fields of a `record`. -/
def readFieldsAs : List (Ident × Term) → List (Ident × Term)
  | [] => []
  | (label, t) :: fields => (label, t.readAs true) :: readFieldsAs fields
/-- `readAs` of the arms of a `caseOf`.  A result that is `isOpen` takes the arms after it. -/
def readArmsAs : List (Term × Term) → List (Term × Term)
  | [] => []
  | (pattern, result) :: arms =>
    extendArms (readArmsAs arms) [(pattern.readAs true, result.readAs true)]
end

/-- The term that the text of `t` is read as, where it stands as it is. -/
def reading (t : Term) : Term := t.readAs true

/-- `readAllAs` goes through the terms one by one. -/
private theorem readAllAs_eq_map (bare : Bool) (ts : List Term) :
    readAllAs bare ts = ts.map (readAs bare) := by
  induction ts with
  | nil => rfl
  | cons t ts ih => simp [readAllAs, ih]

/-- `readFieldsAs` goes through the fields one by one. -/
private theorem readFieldsAs_eq_map (fields : List (Ident × Term)) :
    readFieldsAs fields = fields.map fun f => (f.1, f.2.readAs true) := by
  induction fields with
  | nil => rfl
  | cons f fields ih => simp [readFieldsAs, ih]

/-! ## Further arms -/

/-- What `extendArms` does is decided by the last result. -/
private theorem extendArms_concat (further init : List (Term × Term)) (pattern result : Term) :
    extendArms further (init ++ [(pattern, result)]) =
      init ++ if result.isOpen then [(pattern, result.extend further)]
        else (pattern, result) :: further := by
  induction init with
  | nil => simp [extendArms]
  | cons a init ih => simp [extendArms, ih]

/-- `extendArms` of a single arm. -/
private theorem extendArms_singleton (further : List (Term × Term)) (pattern result : Term) :
    extendArms further [(pattern, result)] =
      if result.isOpen then [(pattern, result.extend further)] else (pattern, result) :: further :=
  extendArms_concat further [] pattern result

/-- What `extendArms` changes: the last result if it is `isOpen`, and the arms themselves if it is
    not. -/
private theorem extendArms_cases (further : List (Term × Term)) {arms : List (Term × Term)}
    (hne : arms ≠ []) :
    ∃ init pattern result, arms = init ++ [(pattern, result)] ∧
      (result.isOpen = true ∧ extendArms further arms = init ++ [(pattern, result.extend further)] ∨
        result.isOpen = false ∧ extendArms further arms = arms ++ further) := by
  obtain hnil | ⟨init, ⟨pattern, result⟩, hconcat⟩ := List.eq_nil_or_concat arms
  · exact absurd hnil hne
  · rw [List.concat_eq_append] at hconcat
    refine ⟨init, pattern, result, hconcat, ?_⟩
    rw [hconcat, extendArms_concat]
    cases hopen : result.isOpen <;> simp

/-- `extendArms` leaves no split without arms. -/
private theorem extendArms_ne_nil (further : List (Term × Term)) {arms : List (Term × Term)}
    (hne : arms ≠ []) : extendArms further arms ≠ [] := by
  obtain ⟨init, pattern, result, rfl, ⟨_, heq⟩ | ⟨_, heq⟩⟩ := extendArms_cases further hne <;>
    simp [heq]

/-- What holds of all arms, of the `further` ones and of extended results holds after
    `extendArms`. -/
private theorem forall_mem_extendArms {p : Term × Term → Prop} {arms further : List (Term × Term)}
    (harms : ∀ a ∈ arms, p a) (hfurther : ∀ a ∈ further, p a)
    (hextend : ∀ a ∈ arms, a.2.isOpen = true → p (a.1, a.2.extend further)) :
    ∀ a ∈ extendArms further arms, p a := by
  by_cases hne : arms = []
  · rw [hne, extendArms]
    exact hfurther
  · obtain ⟨init, pattern, result, rfl, ⟨hopen, heq⟩ | ⟨_, heq⟩⟩ := extendArms_cases further hne
    · rw [heq]
      rw [List.forall_mem_append] at harms
      exact List.forall_mem_append.2 ⟨harms.1,
        List.forall_mem_singleton.2 (hextend (pattern, result) (by simp) hopen)⟩
    · rw [heq]
      exact List.forall_mem_append.2 ⟨harms, hfurther⟩

/-- After `extendArms` only the last result may be `isOpen`, and it is not if there are further arms
    of the same split. -/
private theorem pairwise_extendArms {arms further : List (Term × Term)}
    (harms : arms.Pairwise fun a _ => a.2.isOpen = false)
    (hfurther : further.Pairwise fun a _ => a.2.isOpen = false) :
    (extendArms further arms).Pairwise fun a _ => a.2.isOpen = false := by
  by_cases hne : arms = []
  · rw [hne, extendArms]
    exact hfurther
  · obtain ⟨init, pattern, result, rfl, ⟨hopen, heq⟩ | ⟨hopen, heq⟩⟩ := extendArms_cases further hne
    · rw [List.pairwise_append] at harms
      rw [heq, List.pairwise_append]
      exact ⟨harms.1, List.pairwise_singleton _ _,
        fun a ha _ _ => harms.2.2 a ha (pattern, result) (by simp)⟩
    · rw [heq, List.pairwise_append]
      -- The last result is not open, so it may have arms after it.
      refine ⟨harms, hfurther, fun a ha _ _ => ?_⟩
      rw [List.pairwise_append] at harms
      rcases List.mem_append.1 ha with ha | ha
      · exact harms.2.2 a ha (pattern, result) (by simp)
      · rw [List.mem_singleton.1 ha]
        exact hopen

/-- `extend` by no arms changes nothing. -/
private theorem extend_nil (t : Term) : t.extend [] = t := by
  induction t using Term.induct with
  | quant kind bound types body ih => rw [extend, ih]
  | caseOf scrutinee arms _ ih =>
    rw [extend]
    by_cases hne : arms = []
    · rw [hne, extendArms]
    · obtain ⟨init, pattern, result, rfl, ⟨_, heq⟩ | ⟨_, heq⟩⟩ := extendArms_cases [] hne
      · rw [heq, ih (pattern, result) (by simp)]
      · rw [heq, List.append_nil]
  | _ => rfl

/-- The text of arms, with the mark that stands before an arm before each. -/
def armsText (arms : List (Term × Term)) : List Char := behind " | " (renderArms arms)

/-- `armsText` of two lists of arms is that of the one, followed by that of the other. -/
private theorem armsText_append (arms arms' : List (Term × Term)) :
    armsText (arms ++ arms') = armsText arms ++ armsText arms' := by
  simp only [armsText, renderArms_eq_map, List.map_append, behind_append]

/-- `armsText` starts with the text of the first arm. -/
private theorem armsText_cons (pattern result : Term) (arms : List (Term × Term)) :
    armsText ((pattern, result) :: arms) =
      " | ".toList ++ (pattern.render.toList ++
        (" \\<Rightarrow> ".toList ++ (result.render.toList ++ armsText arms))) := by
  simp only [armsText, renderArms, behind_cons, String.toList_append, List.append_assoc]

/-- No arms have no text. -/
private theorem armsText_nil : armsText [] = [] := rfl

/-- Splits whose `armsText` is the same but for an end have themselves the same text but for that
    end. -/
private theorem render_caseOf {scrutinee scrutinee' : Term} {arms arms' : List (Term × Term)}
    (hne : arms ≠ []) (hne' : arms' ≠ []) (hscrutinee : scrutinee.render = scrutinee'.render)
    (rest : List Char) (harms : armsText arms = armsText arms' ++ rest) :
    (Term.caseOf scrutinee arms).render.toList =
      (Term.caseOf scrutinee' arms').render.toList ++ rest := by
  have hparts : ∀ as : List (Term × Term), as ≠ [] → renderArms as ≠ [] := by
    simp [renderArms_eq_map]
  rw [armsText, armsText, behind_eq_append _ (hparts arms hne),
    behind_eq_append _ (hparts arms' hne'), List.append_assoc] at harms
  simp only [render, String.toList_append, hscrutinee, List.append_cancel_left harms,
    List.append_assoc]

/-- `extend` adds the text of the `further` arms at the end of a term that is `isOpen`. -/
private theorem render_extend {t : Term} (ht : t.Regular) (hopen : t.isOpen = true)
    (further : List (Term × Term)) :
    (t.extend further).render.toList = t.render.toList ++ armsText further := by
  induction ht with
  | quant _ _ _ _ ih =>
    simp only [extend, render, String.toList_append, ih hopen, List.append_assoc]
  | caseOf _ hne _ _ _ _ ih =>
    obtain ⟨init, pattern, result, rfl, ⟨hresult, heq⟩ | ⟨_, heq⟩⟩ := extendArms_cases further hne
    · -- The arms go to the last result, whose text goes on with them by induction.
      refine render_caseOf (by simp [heq]) hne rfl _ ?_
      have hlast := ih (pattern, result) (by simp) hresult
      simp only [heq, armsText_append, armsText_cons, armsText_nil, hlast, List.append_assoc,
        List.append_nil]
    · -- The arms follow those of the split.
      exact render_caseOf (by simp [heq]) hne rfl _ (by rw [heq, armsText_append])
  | _ => cases hopen

/-- `extend` by regular arms keeps a term regular. -/
private theorem regular_extend {t : Term} (ht : t.Regular) (hopen : t.isOpen = true)
    {further : List (Term × Term)} (hpatterns : ∀ a ∈ further, a.1.Regular)
    (hresults : ∀ a ∈ further, a.2.Regular) : (t.extend further).Regular := by
  induction ht with
  | quant hne hbound htypes _ ih => exact .quant hne hbound htypes (ih hopen)
  | caseOf hscrutinee hne hpatterns' hresults' _ _ ih =>
    exact .caseOf hscrutinee (extendArms_ne_nil further hne)
      (forall_mem_extendArms hpatterns' hpatterns fun a ha _ => hpatterns' a ha)
      (forall_mem_extendArms hresults' hresults ih)
  | _ => cases hopen

/-- Arms that are read as they stand: patterns and results are `Plain`, and only the last result may
    be `isOpen`. -/
structure PlainArms (arms : List (Term × Term)) : Prop where
  patterns : ∀ a ∈ arms, Plain true a.1
  results : ∀ a ∈ arms, Plain true a.2
  closed : arms.Pairwise fun a _ => a.2.isOpen = false

/-- `extend` by `PlainArms` keeps a term `Plain`. -/
private theorem plain_extend {t : Term} {bare : Bool} (ht : Plain bare t) (hopen : t.isOpen = true)
    {further : List (Term × Term)} (hfurther : PlainArms further) :
    Plain bare (t.extend further) := by
  induction ht with
  | quant _ ih => exact .quant (ih hopen)
  | caseOf hscrutinee hpatterns hresults hclosed _ _ ih =>
    exact .caseOf hscrutinee
      (forall_mem_extendArms hpatterns hfurther.patterns fun a ha _ => hpatterns a ha)
      (forall_mem_extendArms hresults hfurther.results ih)
      (pairwise_extendArms hclosed hfurther.closed)
  | _ => cases hopen

/-! ## Properties of readings -/

/-- `annotated` does not change the text of a `typed` term. -/
private theorem render_annotated (t : Term) (typ : Typ) :
    (annotated t typ).render = (Term.typed t typ).render := by
  obtain heq | ⟨k, rfl, rfl⟩ := annotated_cases t typ
  · rw [heq]
  · exact render_int_ofNat k

/-- `readAs` changes no brackets of operands. -/
private theorem isAtomic_readAs (t : Term) : (t.readAs false).isAtomic = t.isAtomic := by
  cases t <;> rfl

/-- `readArmsAs` from the first arm on: a result that is `isOpen` takes the readings of the
    others. -/
private theorem readArmsAs_cons (pattern result : Term) (arms : List (Term × Term)) :
    readArmsAs ((pattern, result) :: arms) =
      if (result.readAs true).isOpen then
        [(pattern.readAs true, (result.readAs true).extend (readArmsAs arms))]
      else (pattern.readAs true, result.readAs true) :: readArmsAs arms := by
  rw [readArmsAs, extendArms_singleton]

/-- `readArmsAs` leaves no split without arms. -/
private theorem readArmsAs_ne_nil {arms : List (Term × Term)} (hne : arms ≠ []) :
    readArmsAs arms ≠ [] := by
  cases arms with
  | nil => exact absurd rfl hne
  | cons a arms => exact extendArms_ne_nil _ (List.cons_ne_nil _ [])

/-- What the reading `u` of a term `t` has to be: a regular term with the same text, and `Plain`
    where the text stands. -/
structure IsReading (bare : Bool) (t u : Term) : Prop where
  regular : u.Regular
  plain : Plain bare u
  render_eq : u.render = t.render

/-- What the reading of arms has to be: regular and `PlainArms`, with the same `armsText`. -/
structure IsArmsReading (arms arms' : List (Term × Term)) : Prop where
  patterns : ∀ a ∈ arms', a.1.Regular
  results : ∀ a ∈ arms', a.2.Regular
  plain : PlainArms arms'
  text_eq : armsText arms' = armsText arms

/-- `readArmsAs` is a reading of arms whose patterns and results are read by `readAs`. -/
private theorem isArmsReading_readArmsAs {arms : List (Term × Term)}
    (hpatterns : ∀ a ∈ arms, IsReading true a.1 (a.1.readAs true))
    (hresults : ∀ a ∈ arms, IsReading true a.2 (a.2.readAs true)) :
    IsArmsReading arms (readArmsAs arms) := by
  induction arms with
  | nil =>
    exact ⟨by simp [readArmsAs], by simp [readArmsAs],
      ⟨by simp [readArmsAs], by simp [readArmsAs], .nil⟩, rfl⟩
  | cons a arms ih =>
    obtain ⟨pattern, result⟩ := a
    obtain ⟨hpattern, hpatterns⟩ := List.forall_mem_cons.1 hpatterns
    obtain ⟨hresult, hresults⟩ := List.forall_mem_cons.1 hresults
    have hrest := ih hpatterns hresults
    rw [readArmsAs_cons]
    cases hopen : (result.readAs true).isOpen with
    | true =>
      rw [if_pos rfl]
      -- An open result takes all other arms, and this arm is the only one of the split.
      refine ⟨?_, ?_, ⟨?_, ?_, List.pairwise_singleton _ _⟩, ?_⟩
      · exact List.forall_mem_singleton.2 hpattern.regular
      · exact List.forall_mem_singleton.2
          (regular_extend hresult.regular hopen hrest.patterns hrest.results)
      · exact List.forall_mem_singleton.2 hpattern.plain
      · exact List.forall_mem_singleton.2 (plain_extend hresult.plain hopen hrest.plain)
      · rw [armsText_cons, armsText_cons, render_extend hresult.regular hopen, hrest.text_eq,
          hpattern.render_eq, hresult.render_eq, armsText_nil, List.append_nil]
    | false =>
      rw [if_neg Bool.false_ne_true]
      -- Otherwise the arm is followed by the readings of the others.
      refine ⟨?_, ?_, ⟨?_, ?_, ?_⟩, ?_⟩
      · exact List.forall_mem_cons.2 ⟨hpattern.regular, hrest.patterns⟩
      · exact List.forall_mem_cons.2 ⟨hresult.regular, hrest.results⟩
      · exact List.forall_mem_cons.2 ⟨hpattern.plain, hrest.plain.patterns⟩
      · exact List.forall_mem_cons.2 ⟨hresult.plain, hrest.plain.results⟩
      · exact List.pairwise_cons.2 ⟨fun _ _ => hopen, hrest.plain.closed⟩
      · rw [armsText_cons, armsText_cons, hrest.text_eq, hpattern.render_eq, hresult.render_eq]

/-- Readings of items have the texts of the items. -/
private theorem renders_readAllAs {ts : List Term}
    (h : ∀ t ∈ ts, IsReading true t (t.readAs true)) :
    renders (readAllAs true ts) = renders ts := by
  rw [renders_eq_map, renders_eq_map, readAllAs_eq_map, List.map_map]
  exact List.map_congr_left fun t ht => (h t ht).render_eq

/-- The reading of an operand has the text of the operand, with the same brackets. -/
private theorem asOperand_readAs {t : Term} (h : IsReading false t (t.readAs false)) :
    asOperand (t.readAs false).isAtomic (t.readAs false).render =
      asOperand t.isAtomic t.render := by
  rw [isAtomic_readAs, h.render_eq]

/-- Readings of operands have the texts of the operands. -/
private theorem operands_readAllAs {ts : List Term}
    (h : ∀ t ∈ ts, IsReading false t (t.readAs false)) :
    operands (readAllAs false ts) = operands ts := by
  rw [operands_eq_map, operands_eq_map, readAllAs_eq_map, List.map_map]
  exact List.map_congr_left fun t ht => asOperand_readAs (h t ht)

/-- Readings of fields have the texts of the fields. -/
private theorem renderFields_readFieldsAs {fields : List (Ident × Term)}
    (h : ∀ f ∈ fields, IsReading true f.2 (f.2.readAs true)) :
    renderFields (readFieldsAs fields) = renderFields fields := by
  rw [renderFields_eq_map, renderFields_eq_map, readFieldsAs_eq_map, List.map_map]
  exact List.map_congr_left fun f hf => by simp [(h f hf).render_eq]

/-- What holds of all readings holds of the members of `readAllAs`. -/
private theorem forall_mem_readAllAs {bare : Bool} {p : Term → Prop} {ts : List Term}
    (h : ∀ t ∈ ts, p (t.readAs bare)) : ∀ u ∈ readAllAs bare ts, p u := by
  rw [readAllAs_eq_map]
  exact List.forall_mem_map.2 h

/-- What holds of all readings of fields holds of the members of `readFieldsAs`. -/
private theorem forall_mem_readFieldsAs {p : Ident × Term → Prop} {fields : List (Ident × Term)}
    (h : ∀ f ∈ fields, p (f.1, f.2.readAs true)) : ∀ u ∈ readFieldsAs fields, p u := by
  rw [readFieldsAs_eq_map]
  exact List.forall_mem_map.2 h

/-- `readAllAs` keeps the number of terms. -/
private theorem length_readAllAs (bare : Bool) (ts : List Term) :
    (readAllAs bare ts).length = ts.length := by
  rw [readAllAs_eq_map, List.length_map]

/-- `readAs` reads a `typed` term, where its brackets are those of an integer and where they are its
    own. -/
private theorem isReading_typed {term : Term} {typ : Typ} (htyp : typ.Regular)
    (hterm : IsReading true term (term.readAs true)) (bare : Bool) :
    IsReading bare (.typed term typ) ((Term.typed term typ).readAs bare) := by
  have htext : (Term.typed (term.readAs true) typ).render = (Term.typed term typ).render := by
    rw [render, render, hterm.render_eq]
  cases bare with
  | false =>
    exact ⟨.typed hterm.regular htyp, .typed hterm.plain fun h => absurd h Bool.false_ne_true,
      htext⟩
  | true =>
    -- Without brackets of its own the term may be what an integer is printed as.
    show IsReading true (.typed term typ) (annotated (term.readAs true) typ)
    have hannotated := (render_annotated (term.readAs true) typ).trans htext
    obtain heq | ⟨k, hk, rfl⟩ := annotated_cases (term.readAs true) typ
    · rw [heq]
      exact ⟨.typed hterm.regular htyp, .typed hterm.plain fun _ => heq, htext⟩
    · rw [hk] at hannotated ⊢
      exact ⟨.int k, .lit _, hannotated⟩

/-- `readAs` reads a `caseOf` whose parts are read. -/
private theorem isReading_caseOf {scrutinee : Term} {arms : List (Term × Term)} (hne : arms ≠ [])
    (hscrutinee : IsReading true scrutinee (scrutinee.readAs true))
    (harms : IsArmsReading arms (readArmsAs arms)) (bare : Bool) :
    IsReading bare (.caseOf scrutinee arms) ((Term.caseOf scrutinee arms).readAs bare) := by
  have hne' := readArmsAs_ne_nil hne
  refine ⟨.caseOf hscrutinee.regular hne' harms.patterns harms.results,
    .caseOf hscrutinee.plain harms.plain.patterns harms.plain.results harms.plain.closed, ?_⟩
  have htext : armsText (readArmsAs arms) = armsText arms ++ [] := by
    rw [harms.text_eq, List.append_nil]
  have hrender := render_caseOf hne' hne hscrutinee.render_eq [] htext
  rwa [List.append_nil, String.toList_inj] at hrender

/-- `readAs` of a regular term is regular and `Plain`, and has the text of the term. -/
theorem isReading_readAs {t : Term} (ht : t.Regular) (bare : Bool) :
    IsReading bare t (t.readAs bare) := by
  induction ht generalizing bare with
  | app _ hne _ ihhead ihargs =>
    -- By the parts of the term; each constructor is regular, plain and printed as its parts are.
    have hargs := fun t ht => ihargs t ht false
    refine ⟨.app (ihhead false).regular ?_ (forall_mem_readAllAs fun t ht => (hargs t ht).regular),
      .app (ihhead false).plain (forall_mem_readAllAs fun t ht => (hargs t ht).plain), ?_⟩
    · simpa [readAllAs_eq_map] using hne
    · rw [readAs, render, render, asOperand_readAs (ihhead false), operands_readAllAs hargs]
  | list _ ih =>
    have hitems := fun t ht => ih t ht true
    refine ⟨.list (forall_mem_readAllAs fun t ht => (hitems t ht).regular),
      .list (forall_mem_readAllAs fun t ht => (hitems t ht).plain), ?_⟩
    rw [readAs, render, render, renders_readAllAs hitems]
  | set _ ih =>
    have hitems := fun t ht => ih t ht true
    refine ⟨.set (forall_mem_readAllAs fun t ht => (hitems t ht).regular),
      .set (forall_mem_readAllAs fun t ht => (hitems t ht).plain), ?_⟩
    rw [readAs, render, render, renders_readAllAs hitems]
  | record hlabels _ ih =>
    have hfields := fun f hf => ih f hf true
    refine ⟨.record (forall_mem_readFieldsAs hlabels)
        (forall_mem_readFieldsAs fun f hf => (hfields f hf).regular),
      .record (forall_mem_readFieldsAs fun f hf => (hfields f hf).plain), ?_⟩
    rw [readAs, render, render, renderFields_readFieldsAs hfields]
  | tuple hlen _ ih =>
    have hitems := fun t ht => ih t ht true
    refine ⟨.tuple (by rwa [length_readAllAs])
        (forall_mem_readAllAs fun t ht => (hitems t ht).regular),
      .tuple (forall_mem_readAllAs fun t ht => (hitems t ht).plain), ?_⟩
    rw [readAs, render, render, renders_readAllAs hitems]
  | ident hname => exact ⟨.ident hname, .ident _, rfl⟩
  | nary hlen _ ih =>
    have hargs := fun t ht => ih t ht false
    refine ⟨.nary (by rwa [length_readAllAs])
        (forall_mem_readAllAs fun t ht => (hargs t ht).regular),
      .nary (forall_mem_readAllAs fun t ht => (hargs t ht).plain), ?_⟩
    rw [readAs, render, render, operands_readAllAs hargs]
  | quant hne hbound htypes _ ih =>
    have hbody := ih true
    refine ⟨.quant hne hbound htypes hbody.regular, .quant hbody.plain, ?_⟩
    rw [readAs, render, render, hbody.render_eq]
  | caseOf _ hne _ _ ihscrutinee ihpatterns ihresults =>
    exact isReading_caseOf hne (ihscrutinee true)
      (isArmsReading_readArmsAs (fun a ha => ihpatterns a ha true)
        (fun a ha => ihresults a ha true)) bare
  | typed _ htyp ih => exact isReading_typed htyp (ih true) bare
  | bool b => exact ⟨.bool b, .lit _, rfl⟩
  | nat k => exact ⟨.nat k, .lit _, rfl⟩
  | int k => exact ⟨.int k, .lit _, rfl⟩
  | str hs => exact ⟨.str hs, .lit _, rfl⟩

/-! ## Plain terms -/

/-- `readArmsAs` changes nothing where patterns and results are their own readings and only the last
    result is open. -/
private theorem readArmsAs_eq_self {arms : List (Term × Term)}
    (hpatterns : ∀ a ∈ arms, a.1.readAs true = a.1) (hresults : ∀ a ∈ arms, a.2.readAs true = a.2)
    (hclosed : arms.Pairwise fun a _ => a.2.isOpen = false) : readArmsAs arms = arms := by
  induction arms with
  | nil => rfl
  | cons a arms ih =>
    obtain ⟨pattern, result⟩ := a
    obtain ⟨hpattern, hpatterns⟩ := List.forall_mem_cons.1 hpatterns
    obtain ⟨hresult, hresults⟩ := List.forall_mem_cons.1 hresults
    obtain ⟨hfirst, hrest⟩ := List.pairwise_cons.1 hclosed
    rw [readArmsAs_cons, ih hpatterns hresults hrest, hpattern, hresult]
    cases hopen : result.isOpen with
    | false => rfl
    | true =>
      -- An open result is the last one.
      cases arms with
      | nil => rw [if_pos rfl, extend_nil]
      | cons b arms => simp [hfirst b List.mem_cons_self] at hopen

/-- `readAllAs` changes nothing where all terms are their own readings. -/
private theorem readAllAs_eq_self {bare : Bool} {ts : List Term} (h : ∀ t ∈ ts, t.readAs bare = t) :
    readAllAs bare ts = ts := by
  rw [readAllAs_eq_map]
  exact (List.map_congr_left h).trans (List.map_id ts)

/-- A `Plain` term is its own reading. -/
private theorem readAs_eq_self {bare : Bool} {t : Term} (ht : Plain bare t) :
    t.readAs bare = t := by
  induction ht with
  | app _ _ ihhead ihargs => rw [readAs, ihhead, readAllAs_eq_self ihargs]
  | list _ ih => rw [readAs, readAllAs_eq_self ih]
  | set _ ih => rw [readAs, readAllAs_eq_self ih]
  | record _ ih =>
    rw [readAs, readFieldsAs_eq_map,
      List.map_congr_left (g := id) fun f hf => by rw [ih f hf]; rfl, List.map_id]
  | tuple _ ih => rw [readAs, readAllAs_eq_self ih]
  | ident name => rfl
  | nary _ ih => rw [readAs, readAllAs_eq_self ih]
  | quant _ ih => rw [readAs, ih]
  | caseOf _ _ _ hclosed ihscrutinee ihpatterns ihresults =>
    rw [readAs, ihscrutinee, readArmsAs_eq_self ihpatterns ihresults hclosed]
  | @typed bare term typ _ hbare ih =>
    -- In brackets that could be read as an integer, `Plain` says that they are not.
    rw [readAs, ih]
    cases bare with
    | false => rfl
    | true => exact hbare rfl
  | lit value => rfl

/-! ## Equal texts -/

/-- Equal texts of `Plain` terms are texts of one term. -/
private theorem render_injective {t u : Term} (ht : t.Regular) (hu : u.Regular) (ht' : Plain true t)
    (hu' : Plain true u) (heq : t.render = u.render) : t = u := by
  have hread : ∀ v : Term, v.Regular → Plain true v → ∀ n, sizeOf v ≤ n →
      read n (lex v.render.toList) = some (v, []) := by
    intro v hv hv' n hn
    have hback := read_render n v hv hv' hn [] (follows_nil _)
    rwa [List.append_nil, lex_nil] at hback
  -- One bound on the size serves for both terms, so `read` gives one answer.
  have hfirst := hread t ht ht' (sizeOf t + sizeOf u) (Nat.le_add_right ..)
  have hsecond := hread u hu hu' (sizeOf t + sizeOf u) (Nat.le_add_left ..)
  rw [heq, hsecond] at hfirst
  simpa using hfirst.symm

/-- Two regular terms have the same text exactly if they have the same `reading`, and among `Plain`
    terms only a term and itself.  The `reading` of a term is plain, has the text of the term, and
    differs from the term unless that is plain. -/
theorem render_eq_render_iff {t u : Term} (ht : t.Regular) (hu : u.Regular) :
    (t.render = u.render ↔ t.reading = u.reading) ∧
      (Plain true t → Plain true u → (t.render = u.render ↔ t = u)) ∧
      (t.reading.Regular ∧ Plain true t.reading ∧ t.reading.render = t.render) ∧
      (t.reading = t ↔ Plain true t) := by
  have hfirst : IsReading true t t.reading := isReading_readAs ht true
  have hsecond : IsReading true u u.reading := isReading_readAs hu true
  refine ⟨⟨fun heq => ?_, fun heq => ?_⟩,
    fun ht' hu' => ⟨render_injective ht hu ht' hu', congrArg render⟩,
    ⟨hfirst.regular, hfirst.plain, hfirst.render_eq⟩, fun heq => ?_, readAs_eq_self⟩
  · -- The readings have the texts of the terms, and as plain terms they are read back from them.
    refine render_injective hfirst.regular hsecond.regular hfirst.plain hsecond.plain ?_
    rw [hfirst.render_eq, hsecond.render_eq, heq]
  · rw [← hfirst.render_eq, ← hsecond.render_eq]
    exact congrArg render heq
  · rw [← heq]
    exact hfirst.plain

/-- A split whose first result is a split itself, with one arm after it. -/
def splitBefore : Term :=
  .caseOf (.ident "x") [(.ident "a", .caseOf (.ident "y") [(.ident "b", .ident "c")]),
    (.ident "d", .ident "e")]

/-- The split of `splitBefore` where the inner one has that arm too. -/
def splitAround : Term :=
  .caseOf (.ident "x") [(.ident "a",
    .caseOf (.ident "y") [(.ident "b", .ident "c"), (.ident "d", .ident "e")])]

/-- A `caseOf` with identifiers and regular results is regular. -/
private theorem regular_split {scrutinee pattern : Ident} {result : Term}
    {arms : List (Term × Term)} (hscrutinee : isIdentWord scrutinee = true)
    (hpattern : isIdentWord pattern = true) (hresult : result.Regular)
    (hpatterns : ∀ a ∈ arms, a.1.Regular) (hresults : ∀ a ∈ arms, a.2.Regular) :
    (Term.caseOf (.ident scrutinee) ((.ident pattern, result) :: arms)).Regular :=
  .caseOf (.ident hscrutinee) (List.cons_ne_nil _ _)
    (List.forall_mem_cons.2 ⟨.ident hpattern, hpatterns⟩)
    (List.forall_mem_cons.2 ⟨hresult, hresults⟩)

/-- `splitBefore` is regular. -/
private theorem regular_splitBefore : splitBefore.Regular := by
  have hinner : (Term.caseOf (.ident "y") [(.ident "b", .ident "c")]).Regular :=
    regular_split (by decide) (by decide) (.ident (by decide)) (by simp) (by simp)
  exact regular_split (by decide) (by decide) hinner
    (List.forall_mem_singleton.2 (.ident (by decide)))
    (List.forall_mem_singleton.2 (.ident (by decide)))

/-- `splitAround` is regular. -/
private theorem regular_splitAround : splitAround.Regular := by
  have hinner : (Term.caseOf (.ident "y") [(.ident "b", .ident "c"),
      (.ident "d", .ident "e")]).Regular :=
    regular_split (by decide) (by decide) (.ident (by decide))
      (List.forall_mem_singleton.2 (.ident (by decide)))
      (List.forall_mem_singleton.2 (.ident (by decide)))
  exact regular_split (by decide) (by decide) hinner (by simp) (by simp)

/-- In `splitBefore` the arm after the inner split is read as an arm of that split. -/
theorem render_eq_render_iff_splits :
    splitBefore.reading = splitAround ∧ splitBefore.render = splitAround.render ∧
      ¬Plain true splitBefore := by
  have hread : splitBefore.reading = splitAround := by decide
  have hread' : splitAround.reading = splitAround := by decide
  obtain ⟨htext, -, -, hplain⟩ := render_eq_render_iff regular_splitBefore regular_splitAround
  have hne : splitBefore.reading ≠ splitBefore := by decide
  exact ⟨hread, htext.2 (hread.trans hread'.symm), fun h => hne (hplain.2 h)⟩

/-- Regular terms with the same text: an arm after a split in a result (`splitBefore` and
    `splitAround`), and a number annotated as an integer. -/
theorem render_not_injective :
    (splitBefore.Regular ∧ splitAround.Regular ∧ splitBefore ≠ splitAround ∧
        splitBefore.render = splitAround.render) ∧
      (Term.typed (.nat 5) .int).Regular ∧ (Term.int 5).Regular ∧
      Term.typed (.nat 5) .int ≠ .int 5 ∧
      (Term.typed (.nat 5) .int).render = (Term.int 5).render :=
  ⟨⟨regular_splitBefore, regular_splitAround, by decide, by decide⟩, .typed (.nat 5) (.base .int),
    .int 5, by decide, by decide⟩

end Term

end Warrant
