import RankedTT.Core.Printer

/-!
Why an evaluation fails. Apart from a failing host function, a term that was accepted by the typing
rules is meant not to fail.
-/

set_option autoImplicit false
set_option relaxedAutoImplicit false

namespace RankedTT

inductive HostError where
  | expectedIntegers (op : BinaryOp) (lhs rhs : Value)
  | overflow (op : BinaryOp)
  | expectedStrings (op : BinaryOp) (lhs rhs : Value)
  | expectedEven (value : Value)
  | failure

def HostError.message : HostError → String
  | expectedIntegers op lhs rhs =>
    op.name ++ " expects integers, got " ++ print .standard lhs ++ " and " ++ print .standard rhs
  | overflow op => op.name ++ ": integer overflow"
  | expectedStrings op lhs rhs =>
    op.name ++ " expects strings, got " ++ print .standard lhs ++ " and " ++ print .standard rhs
  | expectedEven value => "Expected an even number, got " ++ print .standard value
  | failure => "host failure"

inductive RuntimeError where
  | unbound (cause : Unbound)
  | notAValue (term : Core) (rank : Nat)
  | notAFunction (value : Value)
  | notARecord (value : Value)
  | memberOutOfRange (value : Value) (index : Nat)
  | host (cause : HostError)

namespace RuntimeError

def message : RuntimeError → String
  | unbound cause => cause.message
  | notAValue term rank =>
    "Cannot evaluate " ++ oneLine term ++ ", it is a type in " ++ oneLine (Core.univ rank)
  | notAFunction value => "Cannot apply " ++ oneLine value ++ ", it is not a function"
  | notARecord value => "Cannot project from " ++ oneLine value ++ ", it is not a record"
  | memberOutOfRange value index =>
    "The record " ++ oneLine value ++ " has no member #" ++ toString index
  | host cause => cause.message

def code : RuntimeError → String
  | unbound _ => Unbound.code
  | notAValue .. => "R-001"
  | notAFunction _ => "R-002"
  | notARecord _ => "R-003"
  | memberOutOfRange .. => "R-004"
  | host _ => "H-001"

def help? : RuntimeError → Option String
  | notAValue .. => some "Only terms in the base universe have a runtime value."
  | _ => none

end RuntimeError

end RankedTT
