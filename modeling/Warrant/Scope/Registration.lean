import Warrant.Scope.Creation

/-! # Registering declarations

Functions, variables and axioms are registered in a catalog one after the other.  Each gets a lemma
that it occurs in the list that represents it, and each variable also a lemma about its type in the
variable context, which cites the membership lemma of this scope or of a scope around it.

A registration that fails keeps what was registered before. -/

namespace Warrant

open Vocabulary

namespace Catalog

/-- Replace the innermost scope of `c`. -/
def withScope (c : Catalog) (s : Scope) : Catalog := { c with scope := s }

/-- File a lemma in `members`.  The declaration's name is taken from the supply `memberNames`. -/
def fileMember (c : Catalog) (key : DeclKey) (lead preferred : String) (statement : Term)
    (script : Script) : Except Error Unit × Catalog :=
  let (name, supply) := c.scope.memberNames.name key preferred
  let s := { c.scope with memberNames := supply }
  match s.members.insert key { name := lead ++ name, statement, script } with
  | .ok members => (.ok (), c.withScope { s with members })
  | .error e => (.error e, c.withScope s)

/-- File a lemma about the list of constants in `constMembers`, named as a membership lemma. -/
def fileConstMember (c : Catalog) (key : DeclKey) (preferred : String) (statement : Term)
    (script : Script) : Except Error Unit × Catalog :=
  let (name, supply) := c.scope.memberNames.name key preferred
  let s := { c.scope with memberNames := supply }
  match s.constMembers.insert key { name := "mconst_" ++ name, statement, script } with
  | .ok constMembers => (.ok (), c.withScope { s with constMembers })
  | .error e => (.error e, c.withScope s)

/-- File a lemma in `lookups`, named by the supply `lookupNames`. -/
def fileLookup (c : Catalog) (key : DeclKey) (preferred : String) (statement : Term)
    (script : Script) : Except Error Unit × Catalog :=
  let (name, supply) := c.scope.lookupNames.name key preferred
  let s := { c.scope with lookupNames := supply }
  match s.lookups.insert key { name, statement, script } with
  | .ok lookups => (.ok (), c.withScope { s with lookups })
  | .error e => (.error e, c.withScope s)

/-- The association list `list` has the entry `decl` for `key`. -/
def entryStatement (list key decl : Term) : Term := .eq (mapOf list key) (someOf decl)

/-! ## Functions and axioms -/

/-- Register the function `f`. -/
def addFunction (c : Catalog) (f : Function) : Except Error Unit × Catalog :=
  match Semantics.functionDecl f with
  | .error e => (.error e, c)
  | .ok decl =>
    let funcs := c.scope.names.funcs
    c.fileMember f.key "mfun_" f.name (entryStatement (.ident funcs) (.str f.name) decl)
      (Script.by ("(simp add: " ++ funcs ++ "_def)"))

/-- Register `functions`, if this scope generates them. -/
def addFunctions (c : Catalog) (functions : List Function) : Except Error Unit × Catalog :=
  if c.scope.generates.functions then attemptEach addFunction c functions else (.ok (), c)

/-- Register the axiom `a`. -/
def addAxiom (c : Catalog) (a : SourceAxiom) : Except Error Unit × Catalog :=
  let axioms := c.scope.names.axioms
  let entry : Lemma :=
    { name := "ma_" ++ toString a.index
      statement := elem a.term (setOfList (.ident axioms))
      script := Script.by ("(simp add: " ++ axioms ++ "_def)") }
  match c.scope.members.insert a.key entry with
  | .ok members => (.ok (), c.withScope { c.scope with members })
  | .error e => (.error e, c)

/-- Register `axioms`, if this scope generates them. -/
def addAxioms (c : Catalog) (axioms : List SourceAxiom) : Except Error Unit × Catalog :=
  if c.scope.generates.axioms then attemptEach addAxiom c axioms else (.ok (), c)

/-! ## Variables -/

/-- Register the constant `v` in the list of constants. -/
def addConstant (c : Catalog) (v : Variable) : Except Error Unit × Catalog :=
  match Semantics.variableDecl v with
  | .error e => (.error e, c)
  | .ok decl =>
    let consts := c.scope.consts
    c.fileConstMember v.key v.name (entryStatement (.ident consts) (.nat v.id.toNat) decl)
      (Script.by ("(simp add: " ++ consts ++ "_def)"))

/-- The list of `s` that holds variables of a kind, and the pair of lists that it is made of. -/
def listFor (s : Scope) : VarKind → Term × (String × String)
  | .constant | .global => (s.constsAndGlobals, (s.consts, s.globals))
  | .paramOrLocal => (s.paramsAndLocals, (s.params, s.locals))

/-- The script for the membership of a variable: by the lemma in `constMembers` for a constant, or
    by the definitions. -/
def variableScript (s : Scope) (kind : VarKind) (key : DeclKey) : Except Error Script :=
  match kind with
  | .constant =>
    match s.constMembers.get? key with
    | some l => .ok (Script.by ("(simp add: " ++ l.name ++ " del: Nat.One_nat_def)"))
    | none => .error (.missingMembership key)
  | _ =>
    let (first, second) := (listFor s kind).2
    .ok (Script.by ("(simp add: " ++ first ++ "_def " ++ second ++ "_def)"))

/-- Register the variable `v` in the variable context. -/
def addVariable (kind : VarKind) (c : Catalog) (v : Variable) : Except Error Unit × Catalog :=
  match Semantics.variableDecl v, variableScript c.scope kind v.key with
  | .error e, _ => (.error e, c)
  | .ok _, .error e => (.error e, c)
  | .ok decl, .ok script =>
    c.fileMember v.key "m_" v.name (entryStatement (listFor c.scope kind).1 (.nat v.id.toNat) decl)
      script

/-- Register the type of the variable `v` in the variable context. -/
def addLookup (c : Catalog) (v : Variable) : Except Error Unit × Catalog :=
  match memberLemma c.chain v.key, Semantics.variableDecl v with
  | .error e, _ => (.error e, c)
  | .ok _, .error e => (.error e, c)
  | .ok member, .ok decl =>
    c.fileLookup v.key ("l_" ++ v.name)
      (.eq (Semantics.lookupVarTy c.scope.varContext (.nat v.id.toNat)) (someOf decl))
      ["using " ++ c.scope.disjointLemma ++ " " ++ member,
       "by (simp add: lookup_var_ty_global_2 lookup_var_ty_local)"]

/-- `addLookup` for variables whose membership is known here or in a scope around. -/
def addLookups (c : Catalog) (vars : List Variable) : Except Error Unit × Catalog :=
  attemptEach addLookup c vars

/-- Register variables of a kind and their types.  Without `generate` their membership is cited from
    the scopes around. -/
def addVariables (c : Catalog) (vars : List Variable) (kind : VarKind) (generate : Bool) :
    Except Error Unit × Catalog :=
  let constants c := if generate && kind = .constant then attemptEach addConstant c vars
    else (.ok (), c)
  let members c := if generate then attemptEach (addVariable kind) c vars else (.ok (), c)
  attemptThen (attemptThen (constants c) members) (addLookups · vars)

/-- Register all declarations of the program `p`. -/
def addProgram (c : Catalog) (p : Program) : Except Error Unit × Catalog :=
  let generates := c.scope.generates
  attemptThen (c.addFunctions p.functions) fun c =>
  attemptThen (c.addAxioms p.axioms) fun c =>
  attemptThen (c.addVariables p.constants .constant generates.globals) fun c =>
  attemptThen (c.addVariables p.globals .global generates.globals) fun c =>
  c.addVariables p.paramsAndLocals .paramOrLocal generates.locals

end Catalog

end Warrant
