import Warrant.Config.Basic
import Warrant.Config.Toml

/-! # Reading a configuration

A configuration is a document of settings, each with its own kind of value.  A setting that is not
given keeps its default; a setting that is unknown, given twice or of another kind makes the
document invalid.

* `Config.read` reads a document and checks the result.
* `Config.load` also lets the environment replace the theory name. -/

namespace Warrant.Config

/-- Change one setting of `c`, if it exists and takes a value of this kind. -/
def set? (c : Config) : String × Toml.Value → Option Config
  | ("theory_name", .text s) => some { c with theory := s }
  | ("imports", .list items) => some { c with imports := items }
  | ("name_spacer", .text s) => some { c with spacer := s }
  | ("passification_locale", .text s) => some { c with locale := s }
  | ("generate_functions", .flag b) => some { c with generates.functions := b }
  | ("generate_axioms", .flag b) => some { c with generates.axioms := b }
  | ("generate_globals_and_constants", .flag b) => some { c with generates.globals := b }
  | ("generate_params_and_locals", .flag b) => some { c with generates.locals := b }
  | _ => none

/-- The configuration that `document` describes, if it is one: `set?` for each setting, in order. -/
def ofDocument? (document : String) : Option Config := do
  (← Toml.settings? document).foldlM set? {}

/-- Read a configuration and `validate` it. -/
def read (document : String) : Except Error Config := do
  match ofDocument? document with
  | none => .error (.config "invalid proofgen config:")
  | some c =>
    c.validate
    return c

/-- `read` a configuration, `override` it by the environment `env` and `validate` the result. -/
def load (document : String) (env : String → Option String) : Except Error Config := do
  let c := (← read document).override env
  c.validate
  return c

end Warrant.Config
