import Warrant.Error
import Warrant.Logic.Vocabulary

/-! # Vocabulary of the source language's semantics

The target logic has a library with the semantics of the source language.  This file builds its
terms: types as terms, boxing and unboxing of values, well-formedness of interpretations and
reduction of control-flow graphs. -/

namespace Warrant.Semantics

open Term (call)

/-- The fixed identifiers over which generated lemmas are stated (`ctx`). -/
structure Context where
  /-- The map from abstract values to their types. -/
  valueMap : Term := .ident "A"
  methods : Term := .ident "M"
  varContext : Term := .ident "\\<Lambda>"
  functions : Term := .ident "\\<Gamma>"
  typeEnv : Term := .ident "\\<Omega>"

/-! ## Types as terms -/

/-- Terms for types come in two forms: `opened` ones may hold type variables, `closed` ones may
    not. -/
inductive TypeForm where
  | opened
  | closed

/-- The constructor for primitive types of a `TypeForm`. -/
def TypeForm.prim : TypeForm → String
  | .opened => "TPrim"
  | .closed => "TPrimC"

/-- The constructor for applied type constructors of a `TypeForm`. -/
def TypeForm.con : TypeForm → String
  | .opened => "TCon"
  | .closed => "TConC"

/-- The term for the primitive type `name`. -/
def primType (form : TypeForm) (name : String) : Term := call form.prim [.ident name]

mutual
/-- The term for a type, given terms for its type variables by `tyvar`. -/
def typeTerm (form : TypeForm) (tyvar : String → Option Term) : SourceTy → Except Error Term
  | .bool => .ok (primType form "TBool")
  | .int => .ok (primType form "TInt")
  | .var name =>
    match tyvar name with
    | some t => .ok t
    | none => .error (.unboundTypeVar name)
  | .ctor name args => do
    let args ← typeTerms form tyvar args
    return call form.con [.str name, .list args]
/-- `typeTerm` of several types, or the failure of the first that has none. -/
def typeTerms (form : TypeForm) (tyvar : String → Option Term) :
    List SourceTy → Except Error (List Term)
  | [] => .ok []
  | t :: ts => do
    let first ← typeTerm form tyvar t
    let others ← typeTerms form tyvar ts
    return first :: others
end

/-- The `opened` term for the type `t`. -/
def openType (tyvar : String → Option Term) (t : SourceTy) : Except Error Term :=
  typeTerm .opened tyvar t

/-- The `closed` term for the type `t`, whose variables stand for the closed types in `σ`. -/
def closedType (σ : Table String Term) (t : SourceTy) : Except Error Term :=
  typeTerm .closed σ.get? t

/-- The `closed` term for a primitive type. -/
def primClosedType? : SourceTy → Option Term
  | .bool => some (primType .closed "TBool")
  | .int => some (primType .closed "TInt")
  | _ => none

/-- The type in the declaration of the variable `v`, which has no type variables. -/
def variableDecl (v : Variable) : Except Error Term := openType (fun _ => none) v.ty

/-- The declaration of the function `f`: the number of its type parameters, its parameter types and
    its return type, with type parameters as positions. -/
def functionDecl (f : Function) : Except Error Term := do
  let tyvar (name : String) : Option Term :=
    (f.typeParams.idxOf? name).map fun i => call "TVar" [.nat i]
  let args ← typeTerms .opened tyvar (f.params.map Prod.snd)
  let ret ← openType tyvar f.ret
  return .tuple [.nat f.typeParams.length, .list args, ret]

/-! ## Types of the verification condition -/

/-- The type of a declaration in a verification condition: primitive types stay, all others are
    abstract values, `'a val`. -/
def pureType : SourceTy → Typ
  | .bool => .bool
  | .int => .int
  | .var _ | .ctor .. => .data "val" [.var "a"]

/-- The type of the function `f` in a verification condition: a closed type for each of
    `explicitParams`, then the values. -/
def pureFunctionType (f : Function) : Typ :=
  Typ.curried
    (f.explicitParams.map (fun _ => .data "closed_ty" []) ++ f.params.map fun p => pureType p.2)
    (pureType f.ret)

/-! ## Values -/

/-- Box `t`, a value of a primitive type; other values stay as they are. -/
def constructValue (t : Term) : SourceTy → Term
  | .int => call "IntV" [t]
  | .bool => call "BoolV" [t]
  | _ => t

/-- Unbox `t`, a value of a primitive type; other values stay as they are. -/
def destructValue (t : Term) : SourceTy → Term
  | .int => call "convert_val_to_int" [t]
  | .bool => call "convert_val_to_bool" [t]
  | _ => t

/-- `BoolV b`, a boxed truth value. -/
def boolVal (b : Bool) : Term := call "BoolV" [.bool b]

/-- `closed t`: the type has no type variables. -/
def closed (t : Term) : Term := call "closed" [t]

/-- `ty_to_closed t`, the closed type of a type. -/
def tyToClosed (t : Term) : Term := call "ty_to_closed" [t]

/-- `closed_to_ty t`, the type of a closed type. -/
def closedToTy (t : Term) : Term := call "closed_to_ty" [t]

/-- `type_of_val a v`, the type of a value. -/
def typeOfVal (a v : Term) : Term := call "type_of_val" [a, v]

/-- `val_of_closed_ty a ty`, some value of a closed type. -/
def valOfClosedTy (a ty : Term) : Term := call "val_of_closed_ty" [a, ty]

/-- `vc_type_of_val a v`, the closed type of a value. -/
def vcTypeOfVal (a v : Term) : Term := call "vc_type_of_val" [a, v]

/-- The name of the `projection` to the argument at `index` of a type constructor. -/
def projectionName (index arity : Nat) : String :=
  "vc_inv_" ++ toString index ++ "_" ++ toString arity

/-- The projection of the closed type `t` to the argument at `index` of its constructor. -/
def projection (index arity : Nat) (t : Term) : Term := call (projectionName index arity) [t]

/-- The name of the lemma that a `projection` undoes its constructor. -/
def leftInverseName (index arity : Nat) : String :=
  "left_inv_" ++ toString index ++ "_" ++ toString arity

/-- The normal form of a look-up `e` with a result of the type `ty`: unboxed and boxed again. -/
def normalizedLookup (e : Term) (ty : SourceTy) : Term :=
  Vocabulary.someOf (constructValue (destructValue (Vocabulary.the e) ty) ty)

/-! ## Well-formedness and reduction -/

/-- `fun_interp_single_wf`: the interpretation of one function fits its declaration. -/
def funInterpSingleWf (a decl f : Term) : Term := call "fun_interp_single_wf" [a, decl, f]

/-- `fun_interp_wf`: the interpretation of all functions fits their declarations. -/
def funInterpWf (a decls gamma : Term) : Term := call "fun_interp_wf" [a, decls, gamma]

/-- `lookup_var_ty`, the type of a variable. -/
def lookupVarTy (varContext id : Term) : Term := call "lookup_var_ty" [varContext, id]

/-- `lookup_var`, the value of a variable. -/
def lookupVar (varContext state id : Term) : Term := call "lookup_var" [varContext, state, id]

/-- `local_state`, the local part of a state. -/
def localState (s : Term) : Term := call "local_state" [s]

/-- `state_typ_wf`: a state fits the declared types. -/
def stateTypWf (ctx : Context) (decls state : Term) : Term :=
  call "state_typ_wf" [ctx.valueMap, ctx.typeEnv, decls, state]

/-- `axiom_assm`: the axioms hold in a state. -/
def axiomAssm (ctx : Context) (varContext axioms state : Term) : Term :=
  call "axiom_assm" [ctx.valueMap, varContext, ctx.functions, axioms, state]

/-- `red_expr`: an expression evaluates to a value. -/
def redExpr (ctx : Context) (e state v : Term) : Term :=
  call "red_expr" [ctx.valueMap, ctx.varContext, ctx.functions, ctx.typeEnv, e, state, v]

/-- `red_cfg_multi`: a control-flow graph goes from one configuration to another in any number of
    steps. -/
def redCfgMulti (ctx : Context) (varContext cfg start stop : Term) : Term :=
  call "red_cfg_multi"
    [ctx.valueMap, ctx.methods, varContext, ctx.functions, ctx.typeEnv, cfg, start, stop]

/-- The configuration of a node, given by its `label`, and a state. -/
def nodeConfig (label state : Term) : Term := .tuple [call "Inl" [label], state]

/-- `Normal s`, a normal outcome. -/
def normal (s : Term) : Term := call "Normal" [s]

/-- `Failure`, the outcome of a failed assertion. -/
def failure : Term := .ident "Failure"

/-- Every value has a `closed` type. -/
def closednessAssumption (a : Term) : Term := .all ["v"] (closed (typeOfVal a (.ident "v")))

/-- Every `closed` type has a value. -/
def nonEmptyTypesAssumption (a : Term) : Term :=
  .all ["t"]
    (.implies (closed (.ident "t"))
      (.quant .ex ["v"] none (.eq (typeOfVal a (.ident "v")) (.ident "t"))))

end Warrant.Semantics
