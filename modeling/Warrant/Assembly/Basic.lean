import Warrant.Assembly.Constructors
import Warrant.Assembly.Functions
import Warrant.Flow.Order
import Warrant.Scope.Catalog

/-! # What the final proof is assembled from

An `Assembly` has the catalog of the scope, the program, the verification condition with its axioms,
the final control-flow graph and the renaming of variables.

The verification condition speaks about parameters, locals and functions under their source names,
and about variables under the names that passification gave them.  `Assembly.vcNames` says which
identifiers the assumption of the final lemma quantifies for these, and `Assembly.vcVariable` which
variable a name of the condition means. -/

namespace Warrant

/-- What the final proof is about. -/
structure Assembly where
  catalog : Catalog
  program : Program
  vc : VcInput
  graph : Graph
  /-- The locale that has the lemma `method_verifies`. -/
  locale : String := "passification"
  /-- Renamed variables with the source variables that they stand for. -/
  renamed : Table String String := .empty

/-- What is quantified in the assumption of the verification condition, a key of the `supply` of
    `VcNames`. -/
inductive VcDecl where
  | variable (id : VarId)
  | function (name : String)
  deriving DecidableEq, Repr

/-- The names of the verification condition: what replaces them (`subst`), and the identifiers that
    are quantified, with their types (`binders`). -/
structure VcNames where
  subst : Assignment := .empty
  binders : List (Ident × Typ) := []
  supply : NameSupply VcDecl := {}

namespace VcNames

/-- Quantify an identifier for the name `source`. -/
def bind (n : VcNames) (decl : VcDecl) (source preferred : String) (typ : Typ) : VcNames :=
  let (id, supply) := n.supply.name decl preferred
  { subst := n.subst.insert source (.ident id), binders := n.binders ++ [(id, typ)], supply }

/-- `bind` an identifier for the parameter or local `v`. -/
def bindVariable (n : VcNames) (v : Variable) : VcNames :=
  n.bind (.variable v.id) v.name v.name (Semantics.pureType v.ty)

/-- `bind` an identifier for the function `f`. -/
def bindFunction (n : VcNames) (f : Function) : VcNames :=
  n.bind (.function f.name) f.name ("vc_" ++ f.name) (Semantics.pureFunctionType f)

end VcNames

/-- Let a renamed variable stand for what its source variable stands for in `σ`, unless it stands
    for something already. -/
def Assignment.alias (σ : Assignment) (link : String × String) : Assignment :=
  match σ.get? link.2 with
  | some t => σ.insertNew link.1 t
  | none => σ

namespace Assembly

variable (a : Assembly)

/-- The function named `name`. -/
def function (name : String) : Except Error Function :=
  match a.program.functions.find? (·.name = name) with
  | some f => .ok f
  | none => .error (.unknownFunction name)

/-- The parameter or local with the source name `name`. -/
def variableNamed? (name : String) : Option Variable :=
  a.program.paramsAndLocals.find? (·.name = name)

/-- The parameter or local that `name`, a name of the verification condition, means, directly or by
    renaming. -/
def vcVariable (name : String) : Except Error Variable :=
  match a.variableNamed? name with
  | some v => .ok v
  | none =>
    match (a.renamed.get? name).bind a.variableNamed? with
    | some v => .ok v
    | none => .error (.unknownVcVariable name)

/-- The names of the verification condition: parameters and locals, then functions, then the
    `renamed` variables in the order of their names. -/
def vcNames : VcNames :=
  let declared := a.program.functions.foldl VcNames.bindFunction
    (a.program.paramsAndLocals.foldl VcNames.bindVariable {})
  { declared with subst := a.renamed.entries.foldl Assignment.alias declared.subst }

/-- The assumption that the verification condition holds: for all `binders` of `vcNames`, the axioms
    imply the condition. -/
def vcAssumption : Term :=
  let n := a.vcNames
  .metaAll n.binders
    (a.vc.axioms.foldr (fun ax acc => .metaImp (ax.hypothesis n.subst) acc)
      (a.vc.condition.subst n.subst))

/-- Labels for the facts that the initial state agrees with the quantified variables, by the `id` of
    the variable. -/
def stateFacts : Table VarId String :=
  let vars := a.program.paramsAndLocals
  let (names, _) := ({} : NameSupply VarId).names (vars.map fun v => (v.id, v.name))
  Table.ofList ((vars.map Variable.id).zip (names.map ("sc_" ++ ·)))

/-- The label of the fact about the parameter or local `v`, from `stateFacts`. -/
def stateFact (v : Variable) : String := (a.stateFacts.get? v.id).getD ""

end Assembly

/-- The label of the fact that the function `f` is interpreted. -/
def Function.interpretationFact (f : Function) : String := "im_" ++ f.name

end Warrant
