import RankedTT.Normal.Basic
import RankedTT.Term.Printer

/-!
Why a program is rejected: each cause keeps the terms it is about, and one function words it. A
cause also has a code and may have a hint.
-/

set_option autoImplicit false
set_option relaxedAutoImplicit false

namespace RankedTT

/-- What a message is about: a term as it was written, or its elaboration. -/
inductive Subject where
  | surface (term : Term)
  | core (term : Core)

def Subject.oneLine : Subject → String
  | .surface term => RankedTT.oneLine term
  | .core term => RankedTT.oneLine term

inductive TypeError where
  | shadowing (name : String)
  | universeMismatch (term : Term) (expected actual : Nat)
  | polarityMismatch (context : Term) (expected actual : Polarity)
  | arityMismatch (expected actual : Nat)
  | memberNameMismatch (position : Nat) (expected actual : String)
  | unknownMember (name : String) (signature : Core)
  | expectedFunction (operator : Term) (type : Core)
  | expectedRecordType (term : Term) (type : Core)
  | expectedType (term : Subject) (classifier : Core)
  | expectedUniverse (term : Term) (expected : Core)
  | expectedQuantifier (term : Term) (expected : Core)
  | quantifierOverTerm (codomain : Term) (type : Core)
  | classNotFunction (cls type : Core)
  | classNotIntoUniverse (cls codomain : Core)
  | classBoundNeedsName
  | cannotInferLambda (name : String)
  | dependentReturnType (name : String) (type : Core)
  | notEqual (lhs rhs expected : Classified Core)
  | unbound (cause : Unbound)
  | danglingGeneric (name : String)
  | danglingAccess (name : String)
  | badProjection (cause : BadProjection)

namespace TypeError

def message : TypeError → String
  | shadowing name => "Shadowing identifier: " ++ name
  | universeMismatch term expected actual =>
    oneLine term ++ " lives in " ++ oneLine (Core.univ actual) ++ ", but " ++
      oneLine (Core.univ expected) ++ " was expected"
  | polarityMismatch context expected actual =>
    "Expected a " ++ expected.keyword ++ " quantifier while elaborating " ++ oneLine context ++
      ", got " ++ actual.keyword
  | arityMismatch expected actual =>
    "The record has " ++ toString actual ++ " members, but its signature declares " ++
      toString expected
  | memberNameMismatch position expected actual =>
    "Member " ++ toString position ++ " of the record is named " ++ actual ++
      ", but its signature expects " ++ expected
  | unknownMember name signature =>
    "The signature " ++ oneLine signature ++ " has no member named " ++ name
  | expectedFunction operator type =>
    "Cannot apply " ++ oneLine operator ++ ", its type " ++ oneLine type ++
      " is not a function type"
  | expectedRecordType term type =>
    "Expected a record type for " ++ oneLine term ++ ", got " ++ oneLine type
  | expectedType term classifier =>
    "Expected " ++ term.oneLine ++ " to be a type, but it is classified by " ++ oneLine classifier
  | expectedUniverse term expected =>
    oneLine term ++ " is a type and must be classified by a universe, got " ++ oneLine expected
  | expectedQuantifier term expected =>
    oneLine term ++ " is a function and must be classified by a quantifier, got " ++
      oneLine expected
  | quantifierOverTerm codomain type =>
    "Quantifiers relate types, not terms: the codomain " ++ oneLine codomain ++ " has type " ++
      oneLine type
  | classNotFunction cls type =>
    "Type class " ++ oneLine cls ++ " must be a function, but has type " ++ oneLine type
  | classNotIntoUniverse cls codomain =>
    "Type class " ++ oneLine cls ++ " must map into a universe, but maps into " ++
      oneLine codomain
  | classBoundNeedsName => "A type class bound needs a named parameter"
  | cannotInferLambda name => "Cannot infer the type of the unannotated parameter " ++ name
  | dependentReturnType name type =>
    "The return type " ++ oneLine type ++ " depends on the parameter " ++ name
  | notEqual lhs rhs _ =>
    "The following terms are not equal:\n  1: " ++ oneLine lhs ++ "\n  2: " ++ oneLine rhs ++ "\n"
  | unbound cause => cause.message
  | danglingGeneric name =>
    "The generic parameter " ++ name ++ " must be bound by a quantifier"
  | danglingAccess name => "The member access ." ++ name ++ " has no operator"
  | badProjection cause =>
    "An unexpected internal error occurred: Projection #" ++ toString cause.index ++
      " out of range for " ++ oneLine cause.record

def code : TypeError → String
  | shadowing _ => "T-001"
  | universeMismatch .. => "T-002"
  | polarityMismatch .. => "T-003"
  | arityMismatch .. => "T-004"
  | memberNameMismatch .. => "T-005"
  | unknownMember .. => "T-006"
  | expectedFunction .. => "T-007"
  | expectedRecordType .. => "T-008"
  | expectedType .. => "T-009"
  | expectedUniverse .. => "T-010"
  | expectedQuantifier .. => "T-011"
  | quantifierOverTerm .. => "T-012"
  | classNotFunction .. => "T-013"
  | classNotIntoUniverse .. => "T-014"
  | classBoundNeedsName => "T-015"
  | cannotInferLambda _ => "T-016"
  | dependentReturnType .. => "T-017"
  | notEqual .. => "T-018"
  | unbound _ => Unbound.code
  | danglingGeneric _ => "T-019"
  | danglingAccess _ => "T-020"
  | badProjection _ => "T-XXX"

def help? : TypeError → Option String
  | shadowing _ =>
    some "Identifiers cannot be rebound while they are in scope. Choose a different name."
  | memberNameMismatch .. => some "Members must be defined in the order of the signature."
  | cannotInferLambda _ => some "Annotate the parameter or provide a type for the function."
  | dependentReturnType .. => some "Annotate the function with a dependent function type."
  | notEqual _ _ expected => some ("While elaborating " ++ oneLine expected)
  | _ => none

end TypeError

/-- The ways in which checking a program can fail: the program is rejected, or an import fails for a
cause of the host's own. -/
inductive Refusal (κ : Type) where
  | rejected (cause : TypeError)
  | importFailed (filename : String) (cause : κ)

namespace Refusal

/-- The wording of a refusal, given that of the host's causes. -/
def message {κ : Type} (causeMessage : κ → String) : Refusal κ → String
  | rejected cause => cause.message
  | importFailed filename cause =>
    "Failed to import " ++ filename ++ ": " ++ causeMessage cause

def code {κ : Type} : Refusal κ → String
  | rejected cause => cause.code
  | importFailed .. => "T-021"

def help? {κ : Type} : Refusal κ → Option String
  | rejected cause => cause.help?
  | importFailed .. => none

end Refusal

end RankedTT
