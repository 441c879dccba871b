import Warrant.Flow.Order
import Warrant.Logic.Decl

/-! # Hints for the commands of blocks

For each command of the final program there may be a hint for its proof.  The hints of a block are
kept in the order in which they came, and become one definition for each block that has any. -/

namespace Warrant

/-- When the assumption of an assertion may be dropped after it, the `subsumption` of a `VcHint`. -/
inductive Subsumption where
  | never
  | notForQuantifiers
  | always
  deriving DecidableEq, Repr

/-- The library's name for a `Subsumption`. -/
def Subsumption.term : Subsumption → Term
  | .never => .ident "SubsumptionNever"
  | .notForQuantifiers => .ident "SubsumptionNotForQuantifiers"
  | .always => .ident "SubsumptionAlways"

/-- A hint for one command of a block. -/
structure VcHint where
  /-- The condition for the command's expression. -/
  expr : Term
  post : Term
  /-- The command's weakest precondition of `post`. -/
  result : Term
  subsumption : Subsumption := .notForQuantifiers
  deriving DecidableEq, Repr

/-- The hint as a tuple of `expr`, `post`, `result` and `subsumption`. -/
def VcHint.term (h : VcHint) : Term := .tuple [h.expr, h.post, h.result, h.subsumption.term]

/-- The hints of blocks, those of a block in the order in which they came. -/
abbrev BlockHints := Table BlockId (List VcHint)

namespace BlockHints

/-- Add `hint` behind those that the block `id` has. -/
def add (t : BlockHints) (id : BlockId) (hint : VcHint) : BlockHints :=
  t.insert id ((t.get? id).getD [] ++ [hint])

/-- The name of the `definition` for a block with this label. -/
def definitionName (label : String) : String := label ++ "_hints"

/-- The definition with the hints of `block`. -/
def definition (block : Block) (hints : List VcHint) : Decl :=
  .definition (definitionName block.label) { lhs := [], rhs := .list (hints.map VcHint.term) }

/-- The `definition` of each block of `g` that has hints in `t`, in backward order. -/
def definitions (t : BlockHints) (g : Graph) : List Decl :=
  g.backwards.filterMap fun id =>
    match t.get? id, g.block? id with
    | some hints, some block => some (definition block hints)
    | _, _ => none

end BlockHints

end Warrant
