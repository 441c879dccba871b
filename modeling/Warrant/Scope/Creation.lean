import Warrant.Scope.Catalog

/-! # Creating a catalog

A new catalog resolves its lists, its own or those of the scope around it, and derives the lemma
that the ids of globals and locals do not meet.  The lemma follows either from the definition of a
pair of lists that this scope generates and that are empty, or from the bounds: the ids of globals
go up to `Scope.globalsBound`, those of locals start above. -/

namespace Warrant

open Vocabulary

/-- The `VarId` after this one; the last id is its own successor. -/
def VarId.next (id : VarId) : VarId := if id.toNat + 1 < UInt32.size then id + 1 else id

/-- A side of the variable context whose ids `boundLemmas` bounds. -/
inductive Side where
  | globals
  | locals
  deriving DecidableEq, Repr

namespace Side

/-- The name of the bound lemma of a `Side`. -/
def lemmaName : Side → String
  | .globals => globalsMaxName
  | .locals => localsMinName

/-- The two lists of `s` that hold the variables of `side`. -/
def lists (side : Side) (s : Scope) : String × String :=
  match side with
  | .globals => (s.consts, s.globals)
  | .locals => (s.params, s.locals)

/-- The ids of `side`, as a list term. -/
def ids (side : Side) (s : Scope) : Term :=
  match side with
  | .globals => map fst s.constsAndGlobals
  | .locals => map fst s.paramsAndLocals

/-- The term `t` is within the `bound` of `side`. -/
def within (side : Side) (t bound : Term) : Term :=
  match side with
  | .globals => .le t bound
  | .locals => .ge t bound

/-- The extreme element of `set`, a set of ids of `side`. -/
def extreme (side : Side) (set : Term) : Term :=
  match side with
  | .globals => setMax set
  | .locals => setMin set

/-- The library's step from the `extreme` element to all. -/
def helper : Side → String
  | .globals => "helper_max"
  | .locals => "helper_min"

end Side

/-- The script that unfolds the pair `lists`. -/
def unfoldLists (lists : String × String) : Script :=
  ["unfolding " ++ lists.1 ++ "_def " ++ lists.2 ++ "_def", "by simp"]

/-- The lemmas that the ids of `side` are within `bound`: first for the `extreme` id, then for
    all. -/
def boundLemmas (side : Side) (s : Scope) (bound : VarId) : List Lemma :=
  let limit : Term := .nat bound.toNat
  let ids := side.ids s
  let auxName := side.lemmaName ++ "_aux"
  [{ name := auxName
     statement := .implies (.neq ids emptyList) (side.within (side.extreme (setOfList ids)) limit)
     script := unfoldLists (side.lists s) },
   { name := side.lemmaName
     statement :=
       .all ["x"] (.implies (elem (.ident "x") (setOfList ids)) (side.within (.ident "x") limit))
     script := ["using " ++ auxName ++ " " ++ side.helper, "by blast"] }]

/-- The statement that globals and locals of `s` do not meet. -/
def disjointStatement (s : Scope) : Term :=
  .eq (inter (setOfList (Side.globals.ids s)) (setOfList (Side.locals.ids s))) emptySet

/-- The lists that make `disjointStatement` hold because they are empty, if this scope generates
    such a pair. -/
def emptyLists? (s : Scope) (globalIds localIds : List VarId) : Option (String × String) :=
  if s.generates.globals && globalIds.isEmpty then some (Side.globals.lists s)
  else if s.generates.locals && localIds.isEmpty then some (Side.locals.lists s)
  else none

/-- The least of `localIds`, or the first id that no global has. -/
def localsBound (s : Scope) (localIds : List VarId) : VarId :=
  localIds.min?.getD s.globalsBound.next

/-- The lemmas about the ids of globals and locals: `boundLemmas`, then the one named
    `disjointName`. -/
def disjointnessLemmas (s : Scope) (enclosing : List Scope) (globalIds localIds : List VarId) :
    Except Error (List Lemma) := do
  if let some id := globalIds.find? fun id => !(id ≤ s.globalsBound) then
    throw (.boundViolated globalsMaxName id s.globalsBound)
  let low := localsBound s localIds
  let bounds :=
    (if s.generates.globals then boundLemmas .globals s s.globalsBound else []) ++
      boundLemmas .locals s low
  let script ← match emptyLists? s globalIds localIds with
    | some lists => pure (unfoldLists lists)
    | none => do
      if s.globalsBound ≥ low then throw (.rangesOverlap s.globalsBound low)
      let globalsMax ← globalsMaxLemma (s :: enclosing)
      pure ["using " ++ s.localsMinLemma ++ " " ++ globalsMax, "by fastforce"]
  return bounds ++ [{ name := disjointName, statement := disjointStatement s, script }]

/-- A type has no type variables, as the predicate `wf_ty 0`. -/
def wfTy : Term := .call "wf_ty" [.nat 0]

/-- The lemma that `pred` holds of what all entries of `list` declare. -/
def listWfLemma (name list : String) (pred : Term) : Lemma :=
  { name
    statement := listAll (composition pred snd) (.ident list)
    script := ["unfolding " ++ list ++ "_def", "by simp"] }

/-- The lemmas `wellFormednessNames`: each list is well-formed, and with them the variable
    context. -/
def wellFormednessLemmas (s : Scope) : List Lemma :=
  [listWfLemma funcsWfName s.names.funcs (.ident "wf_fdecl"),
   listWfLemma constsWfName s.names.consts wfTy,
   listWfLemma globalsWfName s.names.globals wfTy,
   listWfLemma paramsWfName s.names.params wfTy,
   listWfLemma localsWfName s.names.locals wfTy,
   { name := varContextWfName
     statement := .all ["x", "\\<tau>"]
       (.implies
         (.eq (Semantics.lookupVarTy s.varContext (.ident "x")) (someOf (.ident "\\<tau>")))
         (.app wfTy [.ident "\\<tau>"]))
     script :=
       ["apply (rule lookup_ty_pred_2)",
        "by (simp_all add: " ++
          " ".intercalate [constsWfName, globalsWfName, paramsWfName, localsWfName] ++ ")"] }]

/-- The nearest scope around, if the group `what` has to come from there. -/
def parent (enclosing : List Scope) (what : String) : Except Error Scope :=
  match enclosing with
  | s :: _ => .ok s
  | [] => .error (.missingParent what)

/-- The `globalsBound` of a scope that generates globals.  Without globals any id below the locals
    would do; the least id of a local stands in for it. -/
def ownGlobalsBound (globalIds localIds : List VarId) : VarId :=
  globalIds.max?.getD (localIds.min?.getD 0)

/-- A scope without lemmas, its lists resolved by `config` to its own or those of its `parent`. -/
def resolveScope (config : Config) (names : ListNames) (globalIds localIds : List VarId)
    (enclosing : List Scope) : Except Error Scope := do
  let qualify := qualified config.theory
  let (params, locals) ←
    if config.generates.locals then pure (qualify names.params, qualify names.locals)
    else do
      let p ← parent enclosing "params and locals"
      pure (p.params, p.locals)
  let (consts, globals, globalsBound) ←
    if config.generates.globals then
      pure (qualify names.consts, qualify names.globals, ownGlobalsBound globalIds localIds)
    else do
      let p ← parent enclosing "constants and globals"
      pure (p.consts, p.globals, p.globalsBound)
  let functions ←
    if config.generates.functions then pure (qualify names.funcs)
    else do pure (← parent enclosing "functions").functions
  let axioms ←
    if config.generates.axioms then pure (qualify names.axioms)
    else do pure (← parent enclosing "axioms").axioms
  return {
    theory := config.theory
    names, params, locals, consts, globals, functions, axioms, globalsBound
    generates := config.generates
    memberNames := { spacer := config.spacer }
    lookupNames := { spacer := config.spacer } }

/-- The catalog of a scope with constants and globals at `globalIds` and parameters and locals at
    `localIds`, inside the given scopes. -/
def Catalog.create (config : Config) (names : ListNames) (globalIds localIds : List VarId)
    (enclosing : List Scope) : Except Error Catalog := do
  let s ← resolveScope config names globalIds localIds enclosing
  let disjoint ← disjointnessLemmas s enclosing globalIds localIds
  let wf := if s.generates.functions then wellFormednessLemmas s else []
  return ⟨{ s with helpers := disjoint ++ wf }, enclosing⟩

end Warrant
