import Warrant.Flow.Error
import Warrant.Source.Program

/-! # What can go wrong

All causes for which no theory is produced.  Most of them say that the calling tool broke a rule;
those that `Error.isUnsupported` picks out say that the input has a shape for which there is no
proof step, so that only the procedure at hand has to be skipped. -/

namespace Warrant

/-- A cause of failure of a call on a `Session` or one of its parts. -/
inductive Error where
  | flow (cause : FlowError)
  | config (detail : String)
  | missingMembership (key : DeclKey)
  | duplicateMembership (key : DeclKey)
  /-- The group of declarations `what` is neither generated nor available from an enclosing
      scope. -/
  | missingParent (what : String)
  | rangesOverlap (globalsMax localsMin : VarId)
  /-- The variable at `id` is outside of what the lemma `claimedBy` says. -/
  | boundViolated (claimedBy : String) (id bound : VarId)
  | unboundTypeVar (name : String)
  | checkpointOrder (checkpoint expected : String)
  | variableMapping (name : String)
  | duplicateVariable (name : String)
  | unknownVcVariable (name : String)
  | unknownFunction (name : String)
  | unsupportedAxiom (name kind : String)
  | unsupportedCast (ty : String)
  | unsupportedCtorType (ty : String)
  deriving DecidableEq, Repr

namespace Error

/-- The message of an `Error` for the user. -/
def message : Error → String
  | .flow cause => cause.message
  | .config detail => "invalid configuration: " ++ detail
  | .missingMembership key =>
    "no membership lemma for " ++ key.render ++ " in this scope or any enclosing scope"
  | .duplicateMembership key => key.render ++ " already has a membership lemma in this scope"
  | .missingParent what =>
    what ++ " is not generated in this scope and there is no enclosing scope"
  | .rangesOverlap globalsMax localsMin =>
    "globals reach id " ++ toString globalsMax.toNat ++ " but locals start at id " ++
      toString localsMin.toNat
  | .boundViolated claimedBy id bound =>
    "variable id " ++ toString id.toNat ++ " violates the bound " ++ toString bound.toNat ++
      " claimed by `" ++ claimedBy ++ "`"
  | .unboundTypeVar name => "type variable '" ++ name ++ " is not bound here"
  | .checkpointOrder checkpoint expected =>
    "checkpoint `" ++ checkpoint ++ "` fired out of order (expected `" ++ expected ++ "`)"
  | .variableMapping name =>
    "cannot map renamed variable `" ++ name ++ "` back to a source variable"
  | .duplicateVariable name => "variable `" ++ name ++ "` is declared twice"
  | .unknownVcVariable name =>
    "VC variable `" ++ name ++ "` does not correspond to a parameter or local"
  | .unknownFunction name => "function `" ++ name ++ "` is not declared"
  | .unsupportedAxiom name kind =>
    "no proof step for VC axiom `" ++ name ++ "` of kind " ++ kind
  | .unsupportedCast ty =>
    "casts are only supported on `int` and `bool`, found `" ++ ty ++ "`"
  | .unsupportedCtorType ty =>
    "constructor values are only supported for `int` and `bool`, found `" ++ ty ++ "`"

/-- The code under which an `Error` is reported. -/
def code : Error → String
  | .flow cause => cause.code
  | .config _ => "proofgen::config"
  | .missingMembership _ => "proofgen::membership::missing"
  | .duplicateMembership _ => "proofgen::membership::duplicate"
  | .missingParent _ => "proofgen::membership::no_parent"
  | .rangesOverlap .. => "proofgen::membership::overlap"
  | .boundViolated .. => "proofgen::membership::bound"
  | .unboundTypeVar _ => "proofgen::types::unbound"
  | .checkpointOrder .. => "proofgen::session::order"
  | .variableMapping _ => "proofgen::session::renaming"
  | .duplicateVariable _ => "proofgen::session::duplicate_var"
  | .unknownVcVariable _ => "proofgen::vc::unknown_var"
  | .unknownFunction _ => "proofgen::vc::unknown_function"
  | .unsupportedAxiom .. => "proofgen::vc::unsupported_axiom"
  | .unsupportedCast _ => "proofgen::vc::unsupported_cast"
  | .unsupportedCtorType _ => "proofgen::vc::unsupported_ctor"

/-- Advice for the user, where an `Error` has some. -/
def help : Error → Option String
  | .flow cause => cause.help
  | .missingMembership _ =>
    some "register the declaration's membership before deriving lemmas from it"
  | .rangesOverlap .. => some "global and local variable ids must occupy disjoint ranges"
  | _ => none

/-- Whether an `Error` only means that the input has a shape without a proof step. -/
def isUnsupported : Error → Bool
  | .unsupportedAxiom .. | .unsupportedCast _ | .unsupportedCtorType _ => true
  | _ => false

end Error

/-- Report a `FlowError` as a cause of failure. -/
def liftFlow {α : Type} : Except FlowError α → Except Error α
  | .ok a => .ok a
  | .error e => .error (.flow e)

end Warrant
