import Warrant.Proofs.LemmaNames

/-!
# Scripts and the facts that they name

A script is a few lines, and each line may name facts: definitions of lists, facts of the library,
lemmas of the same scope or of a scope around it.  A lemma is justified by the lemmas before it if
its script names nothing else.  The helper lemmas of a scope are derived in order, each from those
before.

* `Line`, `Reference`: lines of scripts with the facts that they name.
* `Justified`: a lemma names nothing but what it can rest on.
* `justified_helperLemmas`: helper lemmas are justified by those before them.
-/

namespace Warrant

/-! ## Lines of scripts -/

/-- A fact that a `Line` names. -/
inductive Reference where
  /-- The definition of a list. -/
  | definition (list : String)
  /-- A fact of the library. -/
  | library (fact : String)
  /-- A lemma, as its own theory cites it. -/
  | own (l : Lemma)
  /-- A lemma of a scope, as other theories cite it. -/
  | ofScope (s : Scope) (l : Lemma)

/-- How a `Reference` is written. -/
def Reference.text : Reference → String
  | .definition list => list ++ "_def"
  | .library fact => fact
  | .own l => l.name
  | .ofScope s l => s.qualify l.name

/-- Several facts, each as its `Reference.text`, with blanks between. -/
def citeAll (facts : List Reference) : String := " ".intercalate (facts.map Reference.text)

/-- A line of a script, with the facts that it names. -/
inductive Line where
  | unfolding (facts : List Reference)
  | given (facts : List Reference)
  | rule (fact : Reference)
  | simp (add : List Reference)
  | simpWithout (add del : List Reference)
  | simpAll (add : List Reference)
  | bySimp
  | byBlast
  | byFastforce

namespace Line

/-- The text of a `Line`, as scripts have it. -/
def text : Line → String
  | .unfolding facts => "unfolding " ++ citeAll facts
  | .given facts => "using " ++ citeAll facts
  | .rule fact => "apply (rule " ++ fact.text ++ ")"
  | .simp add => "by (simp add: " ++ citeAll add ++ ")"
  | .simpWithout add del => "by (simp add: " ++ citeAll add ++ " del: " ++ citeAll del ++ ")"
  | .simpAll add => "by (simp_all add: " ++ citeAll add ++ ")"
  | .bySimp => "by simp"
  | .byBlast => "by blast"
  | .byFastforce => "by fastforce"

/-- The facts that a `Line` names. -/
def references : Line → List Reference
  | .unfolding facts | .given facts => facts
  | .rule fact => [fact]
  | .simp add | .simpAll add => add
  | .simpWithout add del => add ++ del
  | .bySimp | .byBlast | .byFastforce => []

end Line

/-- The facts of the library that scripts name, as `Reference.library`. -/
def libraryFacts : List String :=
  ["helper_max", "helper_min", "lookup_ty_pred_2", "lookup_var_ty_global_2", "lookup_var_ty_local",
    "Nat.One_nat_def"]

/-- The lists whose definitions the lemmas of a scope rest on. -/
def Scope.definitions (s : Scope) : List String :=
  [s.params, s.locals, s.consts, s.globals, s.names.funcs, s.names.axioms, s.names.consts,
    s.names.globals, s.names.params, s.names.locals]

/-- A fact that a lemma of the scope `s` can rest on, after the lemmas `earlier` of the scope. -/
inductive Available (s : Scope) (enclosing : List Scope) (earlier : List Lemma) :
    Reference → Prop where
  | definition {list : String} (h : list ∈ s.definitions) :
      Available s enclosing earlier (.definition list)
  | library {fact : String} (h : fact ∈ libraryFacts) :
      Available s enclosing earlier (.library fact)
  | own {l : Lemma} (h : l ∈ earlier) : Available s enclosing earlier (.own l)
  | here {l : Lemma} (h : l ∈ earlier) : Available s enclosing earlier (.ofScope s l)
  | around {u : Scope} {l : Lemma} (hu : u ∈ enclosing) (h : l ∈ u.lemmas) :
      Available s enclosing earlier (.ofScope u l)

/-- A lemma whose script names nothing but what is `Available` to it. -/
def Justified (s : Scope) (enclosing : List Scope) (earlier : List Lemma) (l : Lemma) : Prop :=
  ∃ lines : List Line, l.script = lines.map Line.text ∧
    ∀ line ∈ lines, ∀ r ∈ line.references, Available s enclosing earlier r

/-- Lemmas each of which is `Justified` by those before it. -/
def JustifiedFrom (s : Scope) (enclosing : List Scope) : List Lemma → List Lemma → Prop
  | _, [] => True
  | earlier, l :: rest =>
    Justified s enclosing earlier l ∧ JustifiedFrom s enclosing (earlier ++ [l]) rest

section

variable {s : Scope} {enclosing : List Scope} {earlier earlier' : List Lemma} {l : Lemma}

/-- What is `Available` stays so with more lemmas before. -/
theorem Available.mono {r : Reference} (h : Available s enclosing earlier r)
    (hsub : earlier ⊆ earlier') : Available s enclosing earlier' r := by
  cases h with
  | definition h => exact .definition h
  | library h => exact .library h
  | own h => exact .own (hsub h)
  | here h => exact .here (hsub h)
  | around hu h => exact .around hu h

/-- A lemma stays `Justified` with more lemmas before. -/
theorem Justified.mono (h : Justified s enclosing earlier l) (hsub : earlier ⊆ earlier') :
    Justified s enclosing earlier' l := by
  obtain ⟨lines, hscript, hlines⟩ := h
  exact ⟨lines, hscript, fun line hline r hr => (hlines line hline r hr).mono hsub⟩

/-- `JustifiedFrom` for two lists of lemmas, the second after the first. -/
theorem justifiedFrom_append {ls ls' : List Lemma} :
    JustifiedFrom s enclosing earlier (ls ++ ls') ↔
      JustifiedFrom s enclosing earlier ls ∧ JustifiedFrom s enclosing (earlier ++ ls) ls' := by
  induction ls generalizing earlier with
  | nil => simp [JustifiedFrom]
  | cons l ls ih => simp [JustifiedFrom, ih, and_assoc]

/-- Lemmas that do not need each other are `JustifiedFrom` what is before all of them. -/
theorem justifiedFrom_of_forall {ls : List Lemma} (h : ∀ l ∈ ls, Justified s enclosing earlier l) :
    JustifiedFrom s enclosing earlier ls := by
  induction ls generalizing earlier with
  | nil => trivial
  | cons l ls ih =>
    obtain ⟨hl, hls⟩ := List.forall_mem_cons.1 h
    exact ⟨hl, ih fun l' hl' => (hls l' hl').mono (List.subset_append_left _ _)⟩

/-- Lemmas that stand there under a condition are `JustifiedFrom` what is before them. -/
private theorem justifiedFrom_ite {p : Prop} [Decidable p] {ls : List Lemma}
    (h : JustifiedFrom s enclosing earlier ls) :
    JustifiedFrom s enclosing earlier (if p then ls else []) := by
  split
  · exact h
  · trivial

/-- What stands before a lemma of a list that is `JustifiedFrom` nothing justifies it. -/
theorem JustifiedFrom.justified {ls later : List Lemma}
    (h : JustifiedFrom s enclosing [] (ls ++ l :: later)) : Justified s enclosing ls l :=
  (justifiedFrom_append.1 h).2.1

/-! ## Forms of scripts -/

/-- The script `unfoldDefs list list'` needs the definitions of the two lists. -/
private theorem justified_unfoldDefs {list list' : String}
    (hscript : l.script = unfoldDefs list list') (h : list ∈ s.definitions)
    (h' : list' ∈ s.definitions) : Justified s enclosing earlier l := by
  refine ⟨[.unfolding [.definition list, .definition list'], .bySimp], ?_, ?_⟩
  · have htext : "unfolding " ++ list ++ "_def " ++ list' ++ "_def" =
        "unfolding " ++ (list ++ "_def" ++ " " ++ (list' ++ "_def")) := by
      rw [← String.toList_inj]
      simp
    rw [hscript, unfoldDefs, htext]
    rfl
  · simp [Line.references, Available.definition h, Available.definition h']

/-- A script that simplifies with the definition of a list needs that `Reference.definition`. -/
theorem justified_simpDef {list : String}
    (hscript : l.script = Script.by ("(simp add: " ++ list ++ "_def)")) (h : list ∈ s.definitions) :
    Justified s enclosing earlier l := by
  refine ⟨[.simp [.definition list]], ?_, ?_⟩
  · have htext : "by " ++ ("(simp add: " ++ list ++ "_def)") =
        "by (simp add: " ++ (list ++ "_def") ++ ")" := by
      rw [← String.toList_inj]
      simp
    rw [hscript, Script.by, htext]
    rfl
  · simp [Line.references, Available.definition h]

/-- `justified_simpDef` for two lists. -/
theorem justified_simpDefs {list list' : String}
    (hscript : l.script = Script.by ("(simp add: " ++ list ++ "_def " ++ list' ++ "_def)"))
    (h : list ∈ s.definitions) (h' : list' ∈ s.definitions) : Justified s enclosing earlier l := by
  refine ⟨[.simp [.definition list, .definition list']], ?_, ?_⟩
  · have htext : "by " ++ ("(simp add: " ++ list ++ "_def " ++ list' ++ "_def)") =
        "by (simp add: " ++ (list ++ "_def" ++ " " ++ (list' ++ "_def")) ++ ")" := by
      rw [← String.toList_inj]
      simp
    rw [hscript, Script.by, htext]
    rfl
  · simp [Line.references, Available.definition h, Available.definition h']

/-- The script for the membership of a constant, by the lemma `m` about the list of constants. -/
def constantScript (m : Lemma) : Script :=
  Script.by ("(simp add: " ++ m.name ++ " del: Nat.One_nat_def)")

/-- `constantScript` needs the lemma about the list of constants. -/
theorem justified_constantScript {m : Lemma} (hscript : l.script = constantScript m)
    (h : m ∈ earlier) : Justified s enclosing earlier l := by
  refine ⟨[.simpWithout [.own m] [.library "Nat.One_nat_def"]], ?_, ?_⟩
  · have htext : "by " ++ ("(simp add: " ++ m.name ++ " del: Nat.One_nat_def)") =
        "by (simp add: " ++ m.name ++ " del: " ++ "Nat.One_nat_def" ++ ")" := by
      rw [← String.toList_inj]
      simp
    rw [hscript, constantScript, Script.by, htext]
    rfl
  · simp [Line.references, Available.own h,
      Available.library (show "Nat.One_nat_def" ∈ libraryFacts by decide)]

/-- A script that is given two facts needs these, and what its `closing` line names. -/
theorem justified_given (r r' : Reference) (closing : Line)
    (hscript : l.script = ["using " ++ r.text ++ " " ++ r'.text, closing.text])
    (hr : Available s enclosing earlier r) (hr' : Available s enclosing earlier r')
    (hclosing : ∀ r ∈ closing.references, Available s enclosing earlier r) :
    Justified s enclosing earlier l := by
  refine ⟨[.given [r, r'], closing], ?_, ?_⟩
  · have htext : "using " ++ r.text ++ " " ++ r'.text = "using " ++ (r.text ++ " " ++ r'.text) := by
      simp only [String.append_assoc]
    rw [hscript, htext]
    rfl
  · simpa [Line.references, hr, hr'] using hclosing

end

/-! ## Helper lemmas -/

section

variable (s : Scope) (enclosing : List Scope) (earlier : List Lemma)

/-- `boundLemmas` has the lemma about the bound. -/
theorem exists_boundLemma (side : Side) (bound : VarId) :
    ∃ l ∈ boundLemmas side s bound, l.name = side.lemmaName :=
  ⟨_, List.mem_cons_of_mem _ List.mem_cons_self, rfl⟩

/-- `boundLemmas` rest on the lists of the side, and then on the library. -/
private theorem justified_boundLemmas (side : Side) (bound : VarId) :
    JustifiedFrom s enclosing earlier (boundLemmas side s bound) := by
  obtain ⟨aux, main, hlemmas, haux, hmain⟩ : ∃ aux main, boundLemmas side s bound = [aux, main] ∧
      (aux.script = unfoldDefs s.consts s.globals ∨ aux.script = unfoldDefs s.params s.locals) ∧
      main.script = ["using " ++ aux.name ++ " " ++ side.helper, "by blast"] := by
    cases side with
    | globals => exact ⟨_, _, rfl, .inl rfl, rfl⟩
    | locals => exact ⟨_, _, rfl, .inr rfl, rfl⟩
  -- The auxiliary lemma unfolds the lists, and the main one uses it and a fact of the library.
  have hhelper : side.helper ∈ libraryFacts := by cases side <;> decide
  rw [hlemmas]
  refine ⟨?_, ?_, trivial⟩
  · rcases haux with haux | haux <;>
      exact justified_unfoldDefs haux (by simp [Scope.definitions]) (by simp [Scope.definitions])
  · exact justified_given (.own aux) (.library side.helper) .byBlast hmain
      (.own (List.mem_append_right _ List.mem_cons_self)) (.library hhelper) fun r hr => nomatch hr

/-- `listWfLemma` rests on the definition of its list. -/
private theorem justified_listWfLemma (name list : String) (pred : Term)
    (h : list ∈ s.definitions) : Justified s enclosing earlier (listWfLemma name list pred) := by
  refine ⟨[.unfolding [.definition list], .bySimp], ?_,
    by simp [Line.references, Available.definition h]⟩
  rw [listWfLemma, String.append_assoc]
  rfl

/-- The lemmas that the lists of variables are well-formed, of `wellFormednessLemmas`. -/
def variableWfLemmas : List Lemma :=
  [listWfLemma constsWfName s.names.consts wfTy, listWfLemma globalsWfName s.names.globals wfTy,
   listWfLemma paramsWfName s.names.params wfTy, listWfLemma localsWfName s.names.locals wfTy]

/-- Of `wellFormednessLemmas` those about lists rest on their definitions, and the one about the
    variable context on these. -/
private theorem justified_wellFormednessLemmas :
    JustifiedFrom s enclosing earlier (wellFormednessLemmas s) := by
  obtain ⟨context, hlemmas, hcontext⟩ : ∃ context,
      wellFormednessLemmas s =
        listWfLemma funcsWfName s.names.funcs (.ident "wf_fdecl") ::
          (variableWfLemmas s ++ [context]) ∧
      context.script =
        [.rule (.library "lookup_ty_pred_2"), .simpAll ((variableWfLemmas s).map .own)].map
          Line.text :=
    ⟨_, rfl, rfl⟩
  -- The lemma about the context comes last, when the four about lists are there.
  rw [hlemmas, JustifiedFrom, justifiedFrom_append]
  refine ⟨justified_listWfLemma _ _ _ _ _ _ (by simp [Scope.definitions]),
    justifiedFrom_of_forall ?_, ⟨_, hcontext, ?_⟩, trivial⟩
  · intro l hl
    simp only [variableWfLemmas, List.mem_cons, List.not_mem_nil, or_false] at hl
    rcases hl with rfl | rfl | rfl | rfl <;>
      exact justified_listWfLemma _ _ _ _ _ _ (by simp [Scope.definitions])
  · have hrule : "lookup_ty_pred_2" ∈ libraryFacts := by decide
    have hown : ∀ l ∈ variableWfLemmas s, Available s enclosing
        (earlier ++ [listWfLemma funcsWfName s.names.funcs (.ident "wf_fdecl")] ++
          variableWfLemmas s) (.own l) :=
      fun l hl => .own (List.mem_append_right _ hl)
    simpa [Line.references, Available.library hrule] using hown

/-- The script for disjointness unfolds `consts` and `globals` or `params` and `locals`, or cites
    the bounds: `locals_min` of this scope and `globals_max` of the nearest one that generates
    globals. -/
inductive DisjointScript (s : Scope) (enclosing : List Scope) : Script → Prop where
  | unfoldGlobals : DisjointScript s enclosing (unfoldDefs s.consts s.globals)
  | unfoldLocals : DisjointScript s enclosing (unfoldDefs s.params s.locals)
  | bounds (g : Scope) (hg : (s :: enclosing).find? (·.generates.globals) = some g) :
      DisjointScript s enclosing (citeBounds s.localsMinLemma (g.qualify globalsMaxName))

variable {s enclosing}

/-- A lemma with a `DisjointScript` is `Justified` by the bounds. -/
theorem DisjointScript.justified {script : Script} {earlier : List Lemma} {l : Lemma}
    (h : DisjointScript s enclosing script) (hscript : l.script = script)
    (hlocals : ∃ l ∈ earlier, l.name = localsMinName)
    (hglobals : s.generates.globals = true → ∃ l ∈ earlier, l.name = globalsMaxName)
    (houter : ∀ g ∈ enclosing, g.generates.globals = true →
      ∃ l ∈ g.lemmas, l.name = globalsMaxName) : Justified s enclosing earlier l := by
  cases h with
  | unfoldGlobals =>
    exact justified_unfoldDefs hscript (by simp [Scope.definitions]) (by simp [Scope.definitions])
  | unfoldLocals =>
    exact justified_unfoldDefs hscript (by simp [Scope.definitions]) (by simp [Scope.definitions])
  | bounds g hg =>
    obtain ⟨localsMin, hmin, hminName⟩ := hlocals
    -- The scope itself is the nearest one, or one around it is.
    obtain ⟨globalsMax, hmaxName, hmax⟩ :
        ∃ l, l.name = globalsMaxName ∧ Available s enclosing earlier (.ofScope g l) := by
      have hgen : g.generates.globals = true := by simpa using List.find?_some hg
      obtain rfl | hmem := List.mem_cons.1 (List.mem_of_find?_eq_some hg)
      · obtain ⟨l, hl, hname⟩ := hglobals hgen
        exact ⟨l, hname, .here hl⟩
      · obtain ⟨l, hl, hname⟩ := houter g hmem hgen
        exact ⟨l, hname, .around hmem hl⟩
    refine justified_given (.ofScope s localsMin) (.ofScope g globalsMax) .byFastforce ?_
      (.here hmin) hmax fun r hr => nomatch hr
    rw [hscript, ← hmaxName, Scope.localsMinLemma, ← hminName]
    rfl

/-- `helperLemmas` are justified by those before them if the scopes around that generate globals
    have their bound. -/
theorem justified_helperLemmas {low : VarId} {script : Script}
    (hscript : DisjointScript s enclosing script)
    (houter : ∀ g ∈ enclosing, g.generates.globals = true →
      ∃ l ∈ g.lemmas, l.name = globalsMaxName) :
    JustifiedFrom s enclosing [] (helperLemmas s low script) := by
  unfold helperLemmas
  rw [justifiedFrom_append, justifiedFrom_append, justifiedFrom_append]
  refine ⟨⟨⟨justifiedFrom_ite (justified_boundLemmas ..), justified_boundLemmas ..⟩, ?_, trivial⟩,
    justifiedFrom_ite (justified_wellFormednessLemmas ..)⟩
  -- The lemmas about bounds stand before the one about disjointness.
  refine hscript.justified rfl ?_ (fun hgen => ?_) houter
  · obtain ⟨l, hl, hname⟩ := exists_boundLemma s .locals low
    exact ⟨l, List.mem_append_right _ (List.mem_append_right _ hl), hname⟩
  · obtain ⟨l, hl, hname⟩ := exists_boundLemma s .globals s.globalsBound
    rw [if_pos hgen]
    exact ⟨l, List.mem_append_right _ (List.mem_append_left _ hl), hname⟩

end

end Warrant
