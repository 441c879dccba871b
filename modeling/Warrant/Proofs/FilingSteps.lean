import Mathlib.Logic.Relation
import Warrant.Proofs.Disjointness
import Warrant.Proofs.Filing
import Warrant.Proofs.NameSupplies
import Warrant.Scope.Calls

/-!
# What registration does to a catalog

Whatever is registered, and wherever a call stops, a catalog changes by small steps: a name is
taken, or one lemma is filed under a key that has none in its table.  `Step` lists these steps with
everything that a filed lemma depends on; `run_steps` says that calls consist of them.  So an
invariant of catalogs is shown for a single step.

* `Step`: the steps; `run_steps`, `addProgram_steps`: calls and programs are sequences of steps.
* `Extends`: what a sequence of steps keeps.
-/

namespace Warrant

/-! ## Lemmas that can be filed -/

/-- What `get?` finds in a table is one of its entries. -/
theorem LemmaTable.mem_of_get? {t : LemmaTable} {key : DeclKey} {l : Lemma}
    (h : t.get? key = some l) : (key, l) ∈ t :=
  mem_of_lookup_eq_some h

/-- A lemma that can be filed in `members` for a declaration.  Functions and variables have taken a
    name before (`memberNames`). -/
inductive MemberEntry (s : Scope) : DeclKey → Lemma → Prop where
  | function {f : Function} {name : String} {statement : Term}
      (hheld : s.memberNames.held f.key = some name) :
      MemberEntry s f.key
        ⟨"mfun_" ++ name, [], statement, Script.by ("(simp add: " ++ s.names.funcs ++ "_def)")⟩
  | axiomAt {a : SourceAxiom} {statement : Term} :
      MemberEntry s a.key
        ⟨"ma_" ++ toString a.index, [], statement,
          Script.by ("(simp add: " ++ s.names.axioms ++ "_def)")⟩
  | var {v : Variable} {kind : VarKind} {name : String} {statement : Term} {script : Script}
      (hheld : s.memberNames.held v.key = some name)
      (hscript : Catalog.variableScript s kind v.key = .ok script) :
      MemberEntry s v.key ⟨"m_" ++ name, [], statement, script⟩

/-- A lemma that can be filed in `constMembers` for a constant. -/
inductive ConstMemberEntry (s : Scope) : DeclKey → Lemma → Prop where
  | constant {v : Variable} {name : String} {statement : Term}
      (hheld : s.memberNames.held v.key = some name) :
      ConstMemberEntry s v.key
        ⟨"mconst_" ++ name, [], statement, Script.by ("(simp add: " ++ s.consts ++ "_def)")⟩

/-- The script of a lemma in `lookups`, which cites the lemmas `disjoint` and `member`. -/
def lookupScript (disjoint member : String) : Script :=
  ["using " ++ disjoint ++ " " ++ member,
    "by (simp add: lookup_var_ty_global_2 lookup_var_ty_local)"]

/-- A lemma that can be filed in `lookups` about the type of a variable, whose membership is
    known. -/
inductive LookupEntry (s : Scope) (enclosing : List Scope) : DeclKey → Lemma → Prop where
  | var {v : Variable} {name member : String} {statement : Term}
      (hheld : s.lookupNames.held v.key = some name)
      (hmember : memberLemma (s :: enclosing) v.key = .ok member) :
      LookupEntry s enclosing v.key ⟨name, [], statement, lookupScript s.disjointLemma member⟩

namespace Catalog

/-- Nothing is registered in a catalog from `Catalog.create`, and no name is taken. -/
theorem create_registered {config : Config} {names : ListNames} {globalIds localIds : List VarId}
    {enclosing : List Scope} {c : Catalog}
    (h : Catalog.create config names globalIds localIds enclosing = .ok c) :
    c.scope.members = [] ∧ c.scope.constMembers = [] ∧ c.scope.lookups = [] ∧
      c.scope.memberNames = { spacer := config.spacer } ∧
      c.scope.lookupNames = { spacer := config.spacer } := by
  obtain ⟨s, script, hs, _, _, rfl⟩ := Catalog.create_eq_ok h
  -- The scope is resolved on its own or with its parent, and both ways leave the tables empty.
  cases enclosing with
  | nil =>
    rw [resolveScope_nil (generates_of_resolveScope_nil hs)] at hs
    obtain rfl := Except.ok.inj hs
    exact ⟨rfl, rfl, rfl, rfl, rfl⟩
  | cons p outer =>
    rw [resolveScope_cons] at hs
    obtain rfl := Except.ok.inj hs
    exact ⟨rfl, rfl, rfl, rfl, rfl⟩

variable {c c' : Catalog}

/-! ## Steps -/

/-- A change that registration makes to a catalog: a name is taken, or a lemma is filed. -/
inductive Step (c : Catalog) : Catalog → Prop where
  | memberName (key : DeclKey) (preferred : String) :
      Step c (c.withScope { c.scope with
        memberNames := (c.scope.memberNames.name key preferred).2 })
  | lookupName (v : Variable) :
      Step c
        (c.withScope { c.scope with
          lookupNames := (c.scope.lookupNames.name v.key ("l_" ++ v.name)).2 })
  | member {key : DeclKey} {l : Lemma} (hnew : key ∉ c.scope.members.map Prod.fst)
      (hentry : MemberEntry c.scope key l) :
      Step c (c.withScope { c.scope with members := c.scope.members ++ [(key, l)] })
  | constMember {key : DeclKey} {l : Lemma} (hnew : key ∉ c.scope.constMembers.map Prod.fst)
      (hentry : ConstMemberEntry c.scope key l) :
      Step c (c.withScope { c.scope with constMembers := c.scope.constMembers ++ [(key, l)] })
  | lookup {key : DeclKey} {l : Lemma} (hnew : key ∉ c.scope.lookups.map Prod.fst)
      (hentry : LookupEntry c.scope c.enclosing key l) :
      Step c (c.withScope { c.scope with lookups := c.scope.lookups ++ [(key, l)] })

/-- A sequence of `Step`s. -/
abbrev Steps : Catalog → Catalog → Prop := Relation.ReflTransGen Step

/-- A lemma is refused by `LemmaTable.insert`, and then nothing changes, or filed under a key that
    has none. -/
theorem insert_cases (t : LemmaTable) (key : DeclKey) (l : Lemma) (update : LemmaTable → Catalog)
    (c : Catalog) : let attempt : Except Error Unit × Catalog :=
      match t.insert key l with
      | .ok t => (.ok (), update t)
      | .error e => (.error e, c)
    attempt.2 = c ∨ key ∉ t.map Prod.fst ∧ attempt.2 = update (t ++ [(key, l)]) := by
  rw [LemmaTable.insert_eq]
  by_cases hkey : key ∈ t.map Prod.fst
  · rw [if_pos hkey]
    exact .inl rfl
  · rw [if_neg hkey]
    exact .inr ⟨hkey, rfl⟩

/-- So filing a lemma is no `Step` or one. -/
private theorem insert_steps {t : LemmaTable} {key : DeclKey} {l : Lemma}
    {update : LemmaTable → Catalog} (h : key ∉ t.map Prod.fst → Step c (update (t ++ [(key, l)]))) :
    Steps c (match t.insert key l with
      | .ok t => (.ok (), update t)
      | .error e => (.error e, c) : Except Error Unit × Catalog).2 := by
  rcases insert_cases t key l update c with heq | ⟨hnew, heq⟩
  · rw [heq]
  · rw [heq]
    exact .single (h hnew)

/-! ## Registering one declaration -/

/-- `addFunction` takes a name and files a lemma, unless the function has no declaration. -/
private theorem addFunction_steps (c : Catalog) (f : Function) : Steps c (c.addFunction f).2 := by
  unfold addFunction
  cases Semantics.functionDecl f with
  | error e => exact .refl
  | ok decl =>
    exact .head (.memberName f.key f.name)
      (insert_steps fun hnew => .member hnew (.function NameSupply.held_name_self))

/-- `addAxiom` files a lemma, whose name is that of its index. -/
private theorem addAxiom_steps (c : Catalog) (a : SourceAxiom) : Steps c (c.addAxiom a).2 :=
  insert_steps fun hnew => .member hnew .axiomAt

/-- `addConstant` takes a name and files a lemma in `constMembers`. -/
theorem addConstant_steps (c : Catalog) (v : Variable) : Steps c (c.addConstant v).2 := by
  unfold addConstant
  cases Semantics.variableDecl v with
  | error e => exact .refl
  | ok decl =>
    exact .head (.memberName v.key v.name)
      (insert_steps fun hnew => .constMember hnew (.constant NameSupply.held_name_self))

/-- `addVariable` takes a name and files a lemma in `members`. -/
private theorem addVariable_steps (kind : VarKind) (c : Catalog) (v : Variable) :
    Steps c (addVariable kind c v).2 := by
  unfold addVariable
  cases Semantics.variableDecl v with
  | error e => exact .refl
  | ok decl =>
    cases hscript : variableScript c.scope kind v.key with
    | error e => exact .refl
    | ok script =>
      refine .head (.memberName v.key v.name) (insert_steps fun hnew => .member hnew ?_)
      -- The script does not depend on the supply of names.
      have hscript' : variableScript
          { c.scope with memberNames := (c.scope.memberNames.name v.key v.name).2 } kind v.key =
            .ok script := by
        cases kind <;> exact hscript
      exact .var NameSupply.held_name_self hscript'

/-- `addLookup` takes a name and files a lemma in `lookups`, if the membership is known. -/
theorem addLookup_steps (c : Catalog) (v : Variable) : Steps c (c.addLookup v).2 := by
  unfold addLookup
  cases hmember : memberLemma c.chain v.key with
  | error e =>
    -- Without a membership lemma nothing is taken and nothing filed.
    exact .refl
  | ok member =>
    cases Semantics.variableDecl v with
    | error e => exact .refl
    | ok decl =>
      exact .head (.lookupName v)
        (insert_steps fun hnew => .lookup hnew (.var NameSupply.held_name_self hmember))

/-! ## Registering groups of declarations -/

/-- `Steps` of single declarations make up `Steps` of a list of them, wherever it stops. -/
private theorem attemptEach_steps {α : Type} {add : Catalog → α → Except Error Unit × Catalog}
    (hadd : ∀ c a, Steps c (add c a).2) (c : Catalog) (as : List α) :
    Steps c (attemptEach add c as).2 :=
  attemptEach_preserves add (Steps c) (fun s a h => h.trans (hadd s a)) c as .refl

/-- `addFunctions` consists of `Steps`. -/
private theorem addFunctions_steps (c : Catalog) (functions : List Function) :
    Steps c (c.addFunctions functions).2 := by
  unfold addFunctions
  split
  · exact attemptEach_steps addFunction_steps c functions
  · exact .refl

/-- `addAxioms` consists of `Steps`. -/
private theorem addAxioms_steps (c : Catalog) (axioms : List SourceAxiom) :
    Steps c (c.addAxioms axioms).2 := by
  unfold addAxioms
  split
  · exact attemptEach_steps addAxiom_steps c axioms
  · exact .refl

/-- `addVariables` consists of `Steps`: constants, memberships and look-ups, up to the first that
    fails. -/
private theorem addVariables_steps (c : Catalog) (vars : List Variable) (kind : VarKind)
    (generate : Bool) : Steps c (c.addVariables vars kind generate).2 := by
  unfold addVariables
  refine attemptThen_preserves (Steps c) (attemptThen_preserves (Steps c) ?_ fun s h => ?_)
    fun s h => h.trans (attemptEach_steps addLookup_steps s vars)
  · split
    · exact attemptEach_steps addConstant_steps c vars
    · exact .refl
  · split
    · exact h.trans (attemptEach_steps (addVariable_steps kind) s vars)
    · exact h

/-- Every `Call` consists of `Steps`. -/
private theorem call_steps (c : Catalog) (call : Call) : Steps c (c.call call).2 := by
  cases call with
  | functions functions => exact c.addFunctions_steps functions
  | axioms axioms => exact c.addAxioms_steps axioms
  | vars vars kind generate => exact c.addVariables_steps vars kind generate
  | lookups vars => exact attemptEach_steps addLookup_steps c vars

/-- Calls, whether they succeed or not, are sequences of `Steps`. -/
theorem run_steps (c : Catalog) (calls : List Call) : Steps c (c.run calls).2 := by
  induction calls generalizing c with
  | nil => exact .refl
  | cons call calls ih => exact (c.call_steps call).trans (ih _)

/-- `addProgram` consists of `Steps`, for each of its five groups of declarations. -/
theorem addProgram_steps (c : Catalog) (p : Program) : Steps c (c.addProgram p).2 := by
  unfold addProgram
  refine attemptThen_preserves (Steps c) (c.addFunctions_steps _) fun c₁ h₁ => ?_
  refine attemptThen_preserves (Steps c) (h₁.trans (c₁.addAxioms_steps _)) fun c₂ h₂ => ?_
  refine attemptThen_preserves (Steps c) (h₂.trans (c₂.addVariables_steps ..)) fun c₃ h₃ => ?_
  refine attemptThen_preserves (Steps c) (h₃.trans (c₃.addVariables_steps ..)) fun c₄ h₄ => ?_
  exact h₄.trans (c₄.addVariables_steps ..)

/-! ## What steps keep -/

/-- The catalog `c'` has everything that `c` has, in the same order. -/
structure Extends (c c' : Catalog) : Prop where
  enclosing : c'.enclosing = c.enclosing
  cleared : c'.scope.cleared = c.scope.cleared
  members : c.scope.members <+: c'.scope.members
  constMembers : c.scope.constMembers <+: c'.scope.constMembers
  lookups : c.scope.lookups <+: c'.scope.lookups

/-- Every catalog `Extends` itself. -/
theorem Extends.refl (c : Catalog) : Extends c c :=
  ⟨rfl, rfl, List.prefix_rfl, List.prefix_rfl, List.prefix_rfl⟩

/-- `Extends` is transitive. -/
theorem Extends.trans {c₁ c₂ c₃ : Catalog} (h : Extends c₁ c₂) (h' : Extends c₂ c₃) :
    Extends c₁ c₃ where
  enclosing := h'.enclosing.trans h.enclosing
  cleared := h'.cleared.trans h.cleared
  members := h.members.trans h'.members
  constMembers := h.constMembers.trans h'.constMembers
  lookups := h.lookups.trans h'.lookups

/-- A `Step` only adds to a catalog. -/
theorem Step.extends (h : Step c c') : Extends c c' := by
  cases h <;> exact ⟨rfl, rfl, by simp [withScope], by simp [withScope], by simp [withScope]⟩

/-- So `Steps` only add to a catalog. -/
theorem Steps.extends (h : Steps c c') : Extends c c' := by
  induction h with
  | refl => exact .refl c
  | tail _ hstep ih => exact ih.trans hstep.extends

end Catalog

end Warrant
