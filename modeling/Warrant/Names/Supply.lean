import Warrant.Names.Legal

/-! # Name supplies

A `NameSupply κ` hands out legal names for keys.  A key that holds a name gets that name again; a
key without one gets a name that differs from every name held by any other key, in the global table
and in all open scopes.  Names given in a scope are released when the scope is closed.

The name for a key is a legal form of the preferred name, or, when that is held already, the first
of its numbered variants that is free. -/

namespace Warrant

/-- A supply of names for keys.  `scopes` are listed from the innermost outwards. -/
structure NameSupply (κ : Type) where
  spacer : String := "_"
  global : List (κ × String) := []
  scopes : List (List (κ × String)) := []

/-- Names with a fixed meaning in generated theories, which `name` gives to no key: `A` is the
    abstract value map. -/
def reservedNames : List String := ["A"]

/-- The first of `stem` followed by `i`, `i + 1`, … that is not taken, looking at `fuel`
    candidates. -/
def numberedFrom (taken : List String) (stem : String) : (fuel i : Nat) → Option String
  | 0, _ => none
  | fuel + 1, i =>
    let candidate := stem ++ toString i
    if candidate ∈ taken then numberedFrom taken stem fuel (i + 1) else some candidate

namespace NameSupply

variable {κ : Type}

/-- The names that are held, in `global` and in the open `scopes`. -/
def live (s : NameSupply κ) : List String :=
  s.global.map Prod.snd ++ s.scopes.flatMap fun scope => scope.map Prod.snd

/-- A name that nobody holds: `base` or its first free numbered variant.  Among `live.length + 1`
    variants there is a free one. -/
def fresh (s : NameSupply κ) (base : String) : String :=
  if base ∈ s.live then
    (numberedFrom s.live (base ++ s.spacer) (s.live.length + 1) 0).getD base
  else base

/-- Open a scope, the innermost of `scopes` from now on. -/
def openScope (s : NameSupply κ) : NameSupply κ := { s with scopes := [] :: s.scopes }

/-- Close the innermost of `scopes` and release its names.  Without an open scope nothing
    changes. -/
def closeScope (s : NameSupply κ) : NameSupply κ := { s with scopes := s.scopes.tail }

variable [DecidableEq κ]

/-- The `global` name of `key`, given now if the key has none. -/
def name (s : NameSupply κ) (key : κ) (preferred : String) : String × NameSupply κ :=
  match s.global.lookup key with
  | some held => (held, s)
  | none =>
    let base := if preferred ∈ reservedNames then preferred ++ "ZZ" else preferred
    let new := s.fresh (legalName s.spacer base)
    (new, { s with global := (key, new) :: s.global })

/-- The name of `key` in the open `scopes`, given now in the innermost one if the key has none
    there.  With no scope open it is the `global` name. -/
def localName (s : NameSupply κ) (key : κ) (preferred : String) : String × NameSupply κ :=
  match s.scopes with
  | [] => s.name key preferred
  | innermost :: outer =>
    match s.scopes.findSome? (·.lookup key) with
    | some held => (held, s)
    | none =>
      let new := s.fresh (legalName s.spacer preferred)
      (new, { s with scopes := ((key, new) :: innermost) :: outer })

/-- The `global` names of several keys, asked for in order. -/
def names (s : NameSupply κ) : List (κ × String) → List String × NameSupply κ
  | [] => ([], s)
  | (key, preferred) :: rest =>
    let (first, s₁) := s.name key preferred
    let (others, s₂) := s₁.names rest
    (first :: others, s₂)

/-- What can be asked of a `NameSupply`. -/
inductive Request (κ : Type) where
  | name (key : κ) (preferred : String)
  | localName (key : κ) (preferred : String)
  | openScope
  | closeScope

/-- Answer one `Request`: the name that is handed out, if it asks for one, and the supply
    afterwards. -/
def step (s : NameSupply κ) : Request κ → Option String × NameSupply κ
  | .name key preferred =>
    let (n, s') := s.name key preferred
    (some n, s')
  | .localName key preferred =>
    let (n, s') := s.localName key preferred
    (some n, s')
  | .openScope => (none, s.openScope)
  | .closeScope => (none, s.closeScope)

/-- Answer requests in order, each from the supply that the one before it left. -/
def run (s : NameSupply κ) : List (Request κ) → List (Option String) × NameSupply κ
  | [] => ([], s)
  | r :: rs =>
    let (answer, s₁) := s.step r
    let (answers, s₂) := s₁.run rs
    (answer :: answers, s₂)

end NameSupply

end Warrant
