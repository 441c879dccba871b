import Warrant.Scope.Registration

/-! # Catalogs under sequences of calls

What can be registered in a catalog, as one type of calls, and what a catalog answers to a sequence
of them. -/

namespace Warrant.Catalog

/-- A call that registers declarations in a `Catalog`. -/
inductive Call where
  | functions (functions : List Function)
  | axioms (axioms : List SourceAxiom)
  | vars (vars : List Variable) (kind : VarKind) (generate : Bool)
  | lookups (vars : List Variable)

/-- Answer a `Call`, with the catalog that it leaves. -/
def call (c : Catalog) : Call → Except Error Unit × Catalog
  | .functions functions => c.addFunctions functions
  | .axioms axioms => c.addAxioms axioms
  | .vars vars kind generate => c.addVariables vars kind generate
  | .lookups vars => c.addLookups vars

/-- Answer calls in order, each from the catalog that the one before it left. -/
def run (c : Catalog) : List Call → List (Except Error Unit) × Catalog
  | [] => ([], c)
  | call :: calls =>
    let (answer, c₁) := c.call call
    let (answers, c₂) := c₁.run calls
    (answer :: answers, c₂)

end Warrant.Catalog
