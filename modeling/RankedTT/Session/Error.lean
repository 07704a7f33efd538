import RankedTT.Eval.Error
import RankedTT.Typing.Error

/-!
Why a session cannot do what it was asked. A failed import is reported by its own cause.
-/

set_option autoImplicit false
set_option relaxedAutoImplicit false

namespace RankedTT

inductive SessionError where
  | type (cause : TypeError)
  | runtime (cause : RuntimeError)
  | redefinition (name : String)
  | importCycle (module : String) (cycle : List String)
  | moduleNotFound (name : String)

namespace SessionError

def ofRefusal : Refusal SessionError → SessionError
  | .rejected cause => .type cause
  | .importFailed _ cause => cause

def message : SessionError → String
  | type cause => cause.message
  | runtime cause => cause.message
  | redefinition name => name ++ " is already defined"
  | importCycle module cycle =>
    "Import cycle detected for module " ++ module ++ ": " ++ " -> ".intercalate cycle
  | moduleNotFound name => "Module not found: " ++ name

def code : SessionError → String
  | type cause => cause.code
  | runtime cause => cause.code
  | redefinition _ => "D-001"
  | importCycle .. => "D-002"
  | moduleNotFound _ => "D-003"

def help? : SessionError → Option String
  | type cause => cause.help?
  | runtime cause => cause.help?
  | redefinition _ => some "Definitions cannot be replaced. Choose a different name."
  | _ => none

end SessionError

end RankedTT
