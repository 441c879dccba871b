import Warrant.Error

/-! # Configuration

The settings for the theory of one scope: its name and imports, the spacer for names, and which
groups of declarations the scope generates itself.  What a scope does not generate it cites from the
scope around it. -/

namespace Warrant

/-- The groups of declarations that a scope generates itself, the `generates` of a `Config`. -/
structure Groups where
  functions : Bool := true
  axioms : Bool := true
  globals : Bool := true
  locals : Bool := true
  deriving DecidableEq, Repr

/-- The settings for a `Scope`. -/
structure Config where
  theory : String := "proc_proof"
  imports : List String := ["Boogie_Lang.Semantics", "Boogie_Lang.Util", "Boogie_Lang.VCHints"]
  /-- Separates a name from its number and stands for illegal characters (`legalName`). -/
  spacer : String := "_"
  /-- The locale that has the lemma `method_verifies`. -/
  locale : String := "passification"
  generates : Groups := {}
  deriving DecidableEq, Repr

namespace Config

/-- The name of the environment variable that replaces the `theory` name. -/
def theoryVariable : String := "PROOFGEN_THEORY"

/-- Neither `theory` nor `spacer` may be empty. -/
def validate (c : Config) : Except Error Unit :=
  if c.theory.isEmpty then .error (.config "theory_name must not be empty")
  else if c.spacer.isEmpty then .error (.config "name_spacer must not be empty")
  else .ok ()

/-- Replace the `theory` name by the value of `theoryVariable` in `env`, unless that is missing or
    empty. -/
def override (c : Config) (env : String → Option String) : Config :=
  match env theoryVariable with
  | some name => if name.isEmpty then c else { c with theory := name }
  | none => c

/-- The settings for a scope inside the one of `c` that generates parameters and locals only. -/
def forProcedure (c : Config) (theory : String) : Config :=
  { c with theory, generates := { functions := false, axioms := false, globals := false } }

end Config

end Warrant
