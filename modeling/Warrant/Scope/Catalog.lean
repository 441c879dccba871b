import Warrant.Config.Basic
import Warrant.Data.Attempt
import Warrant.Logic.Decl
import Warrant.Names.Supply
import Warrant.Semantics.Vocabulary

/-! # Scope catalogs

Every scope has a catalog of lemmas about the declarations that it sees: that each occurs in the
list that represents it, what type a look-up of a variable gives, and that globals and locals do not
meet.  A scope may leave a group of declarations to the scopes around it; then it uses their lists
and cites their lemmas.

A `Catalog` is a scope together with the scopes around it, the nearest first.  Names of lemmas and
lists are qualified with the theory of the scope that has them. -/

namespace Warrant

/-- The names of the definitions that represent the program in the theory of a `Scope`. -/
structure ListNames where
  funcs : String := "fdecls"
  axioms : String := "axioms"
  consts : String := "consts_vdecls"
  globals : String := "globals_vdecls"
  params : String := "params_vdecls"
  locals : String := "locals_vdecls"
  cfg : String := "proc_body"
  deriving DecidableEq, Repr

/-- Lemmas filed under declarations by `LemmaTable.insert`, in the order in which they were
    filed. -/
abbrev LemmaTable := List (DeclKey × Lemma)

namespace LemmaTable

/-- The lemma filed under `key`. -/
def get? (t : LemmaTable) (key : DeclKey) : Option Lemma := List.lookup key t

/-- File `l` under `key`, a declaration that has no lemma in `t`. -/
def insert (t : LemmaTable) (key : DeclKey) (l : Lemma) : Except Error LemmaTable :=
  if (t.get? key).isSome then .error (.duplicateMembership key) else .ok (t ++ [(key, l)])

/-- The lemmas of `t`, in the order in which they were filed. -/
def lemmas (t : LemmaTable) : List Lemma := t.map Prod.snd

end LemmaTable

/-- A scope with its lemmas: `helpers`, `members`, `constMembers` and `lookups`. -/
structure Scope where
  theory : String
  names : ListNames
  generates : Groups
  /-- The lists that represent the variables: the scope's own or those of a scope around it. -/
  params : String
  locals : String
  consts : String
  globals : String
  functions : String
  axioms : String
  /-- No constant or global has an id above this one; `Catalog.create` checks it. -/
  globalsBound : VarId
  helpers : List Lemma := []
  members : LemmaTable := []
  constMembers : LemmaTable := []
  lookups : LemmaTable := []
  memberNames : NameSupply DeclKey
  lookupNames : NameSupply DeclKey

/-- The name `name` of a theory, as other theories cite it. -/
def qualified (theory name : String) : String := theory ++ "." ++ name

namespace Scope

/-- The name `name` of the scope `s`, as other theories cite it. -/
def qualify (s : Scope) (name : String) : String := qualified s.theory name

/-- The list `consts`, followed by `globals`. -/
def constsAndGlobals (s : Scope) : Term := Vocabulary.append (.ident s.consts) (.ident s.globals)

/-- The list `params`, followed by `locals`. -/
def paramsAndLocals (s : Scope) : Term := Vocabulary.append (.ident s.params) (.ident s.locals)

/-- The variable context: `constsAndGlobals` and `paramsAndLocals`. -/
def varContext (s : Scope) : Term := .tuple [s.constsAndGlobals, s.paramsAndLocals]

/-- The control-flow graph of the procedure, by the qualified name of `names.cfg`. -/
def cfg (s : Scope) : Term := .ident (s.qualify s.names.cfg)

/-- The lemmas of the scope: `helpers`, then those about constants, membership and look-ups, each
    group in the order in which it was filed. -/
def lemmas (s : Scope) : List Lemma :=
  s.helpers ++ s.constMembers.lemmas ++ s.members.lemmas ++ s.lookups.lemmas

/-- The declarations of the scope: its `lemmas`. -/
def decls (s : Scope) : List Decl := s.lemmas.map .statement

end Scope

/-! ## Names of helper lemmas -/

def globalsMaxName : String := "globals_max"
def localsMinName : String := "locals_min"
def disjointName : String := "globals_locals_disj"
def funcsWfName : String := "funcs_wf"
def constsWfName : String := "consts_wf"
def globalsWfName : String := "globals_wf"
def paramsWfName : String := "params_wf"
def localsWfName : String := "locals_wf"
def varContextWfName : String := "var_context_wf"

/-- The names of the lemmas that say that declarations are well-formed (`wellFormednessLemmas`). -/
def wellFormednessNames : List String :=
  [funcsWfName, constsWfName, globalsWfName, paramsWfName, localsWfName, varContextWfName]

namespace Scope

/-- The lemma named `disjointName`: globals and locals do not meet. -/
def disjointness? (s : Scope) : Option Lemma := s.helpers.find? (·.name = disjointName)

/-- The lemmas among `wellFormednessNames`, which say that declarations are well-formed. -/
def wellFormedness (s : Scope) : List Lemma := s.helpers.filter (·.name ∈ wellFormednessNames)

/-- The qualified name of the lemma `disjointness?`. -/
def disjointLemma (s : Scope) : String := s.qualify disjointName

/-- The qualified name of the lemma `localsMinName` with the least id of a local. -/
def localsMinLemma (s : Scope) : String := s.qualify localsMinName

end Scope

/-! ## Citing lemmas along the scopes -/

/-- The name that the nearest scope gives by `find`, or the failure `cause` if none does. -/
def nearest (cause : Error) (find : Scope → Option String) : List Scope → Except Error String
  | [] => .error cause
  | s :: outer =>
    match find s with
    | some name => .ok (s.qualify name)
    | none => nearest cause find outer

/-- The lemma in `members` that a declaration is in its list. -/
def memberLemma (chain : List Scope) (key : DeclKey) : Except Error String :=
  nearest (.missingMembership key) (fun s => (s.members.get? key).map Lemma.name) chain

/-- The lemma in `constMembers` that a constant is in the list of constants. -/
def constMemberLemma (chain : List Scope) (key : DeclKey) : Except Error String :=
  nearest (.missingMembership key) (fun s => (s.constMembers.get? key).map Lemma.name) chain

/-- The lemma in `lookups` about the type that a look-up of a variable gives. -/
def lookupLemma (chain : List Scope) (key : DeclKey) : Except Error String :=
  nearest (.missingMembership key) (fun s => (s.lookups.get? key).map Lemma.name) chain

/-- The lemma `globalsMaxName` with the greatest id of a global, from the nearest scope that
    generates globals. -/
def globalsMaxLemma (chain : List Scope) : Except Error String :=
  nearest (.missingParent "constants and globals")
    (fun s => if s.generates.globals then some globalsMaxName else none) chain

/-- The lemma `funcsWfName`, from the nearest scope that generates functions. -/
def funcsWfLemma (chain : List Scope) : Except Error String :=
  nearest (.missingParent "functions")
    (fun s => if s.generates.functions then some funcsWfName else none) chain

/-- The lemma `varContextWfName`, from the nearest scope that generates functions. -/
def varContextWfLemma (chain : List Scope) : Except Error String :=
  nearest (.missingParent "functions")
    (fun s => if s.generates.functions then some varContextWfName else none) chain

/-- A `scope` and the scopes around it, the nearest first. -/
structure Catalog where
  scope : Scope
  enclosing : List Scope

namespace Catalog

/-- All scopes of `c`, the innermost first. -/
def chain (c : Catalog) : List Scope := c.scope :: c.enclosing

end Catalog

end Warrant
