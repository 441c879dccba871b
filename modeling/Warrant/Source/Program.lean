import Warrant.Logic.Term
import Warrant.Source.Ty

/-! # Declarations of the source program

The functions, axioms and variables that one procedure sees, and the keys under which lemmas about
them are filed. -/

namespace Warrant

/-- The position of a `Variable` in the variable context. -/
abbrev VarId := UInt32

/-- What a declaration is filed under in a `Catalog`: functions by name, variables by position,
    axioms by index. -/
inductive DeclKey where
  | function (name : String)
  | variable (id : VarId)
  | axiomAt (index : Nat)
  deriving DecidableEq, Repr

/-- The text of a `DeclKey` in messages. -/
def DeclKey.render : DeclKey → String
  | .function name => "function `" ++ name ++ "`"
  | .variable id => "variable #" ++ toString id.toNat
  | .axiomAt index => "axiom " ++ toString index

/-- A function of the source program. -/
structure Function where
  name : String
  typeParams : List String := []
  params : List (String × SourceTy) := []
  ret : SourceTy

namespace Function

/-- The `DeclKey` of a function, by its `name`. -/
def key (f : Function) : DeclKey := .function f.name

/-- Whether the arguments of a call determine the type parameter `tv`: some parameter type mentions
    it. -/
def isImplicit (f : Function) (tv : String) : Bool := f.params.any fun p => p.2.mentions tv

/-- The type parameters that no argument determines (`isImplicit`), in order of declaration. -/
def explicitParams (f : Function) : List String := f.typeParams.filter fun tv => !f.isImplicit tv

/-- The type parameters that the arguments determine (`isImplicit`), in order of declaration. -/
def implicitParams (f : Function) : List String := f.typeParams.filter f.isImplicit

end Function

/-- What a `Variable` is declared as. -/
inductive VarKind where
  | constant
  | global
  | paramOrLocal
  deriving DecidableEq, Repr

/-- A variable of the source program; `id` is its position in the variable context. -/
structure Variable where
  name : String
  ty : SourceTy
  id : VarId

/-- The `DeclKey` of a variable, by its `id`. -/
def Variable.key (v : Variable) : DeclKey := .variable v.id

/-- An axiom of the source program; `index` is its place among them. -/
structure SourceAxiom where
  index : Nat
  term : Term

/-- The `DeclKey` of an axiom, by its `index`. -/
def SourceAxiom.key (a : SourceAxiom) : DeclKey := .axiomAt a.index

/-- The declarations that a procedure sees. -/
structure Program where
  functions : List Function := []
  axioms : List SourceAxiom := []
  constants : List Variable := []
  globals : List Variable := []
  params : List Variable := []
  locals : List Variable := []

namespace Program

/-- The `constants`, followed by the `globals`. -/
def constsAndGlobals (p : Program) : List Variable := p.constants ++ p.globals

/-- The `params`, followed by the `locals`. -/
def paramsAndLocals (p : Program) : List Variable := p.params ++ p.locals

/-- The positions of `constsAndGlobals`. -/
def globalIds (p : Program) : List VarId := p.constsAndGlobals.map Variable.id

/-- The positions of `paramsAndLocals`. -/
def localIds (p : Program) : List VarId := p.paramsAndLocals.map Variable.id

end Program

end Warrant
