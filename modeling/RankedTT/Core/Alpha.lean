import RankedTT.Core.Identical

/-!
Equality of core terms up to the names of quantifiers and lambdas. A scope lists the pairs of names
bound at the same place on the two sides, innermost first. Member names of record types are labels
and have to agree; ranks and the types recorded on operators are compared; constants are compared by
the equality of values.
-/

set_option autoImplicit false
set_option relaxedAutoImplicit false

namespace RankedTT

/-- Bound names have to refer to the same binder, free names have to be the same. -/
def sameVariable : List (String × String) → String → String → Bool
  | [], x, y => x == y
  | (a, b) :: scope, x, y =>
    if a == x || b == y then a == x && b == y else sameVariable scope x y

mutual

def Core.alphaEqIn (scope : List (String × String)) : Core → Core → Bool
  | .univ m, .univ n => m == n
  | .quant pol rank domain name codomain, .quant pol' rank' domain' name' codomain' =>
    pol == pol' && rank == rank' && domain.alphaEqIn scope domain' &&
      codomain.alphaEqIn ((name, name') :: scope) codomain'
  | .signature ms, .signature ns => ms.alphaEqIn scope ns
  | .lam param _ body, .lam param' _ body' => body.alphaEqIn ((param, param') :: scope) body'
  | .record ms, .record ns => Core.alphaEqMembersIn scope ms ns
  | .app rank type operator operand, .app rank' type' operator' operand' =>
    rank == rank' && type.alphaEqIn scope type' && operator.alphaEqIn scope operator' &&
      operand.alphaEqIn scope operand'
  | .proj rank type operator index, .proj rank' type' operator' index' =>
    rank == rank' && type.alphaEqIn scope type' && operator.alphaEqIn scope operator' &&
      index == index'
  | .var x, .var y => sameVariable scope x y
  | .const v, .const w => v == w
  | _, _ => false

def Telescope.alphaEqIn (scope : List (String × String)) : Telescope → Telescope → Bool
  | .nil, .nil => true
  | .cons rank type name rest, .cons rank' type' name' rest' =>
    name == name' && rank == rank' && type.alphaEqIn scope type' &&
      rest.alphaEqIn ((name, name') :: scope) rest'
  | _, _ => false

def Core.alphaEqMembersIn (scope : List (String × String)) : List Core → List Core → Bool
  | [], [] => true
  | m :: ms, n :: ns => m.alphaEqIn scope n && Core.alphaEqMembersIn scope ms ns
  | _, _ => false

end

def Core.alphaEq (lhs rhs : Core) : Bool := lhs.alphaEqIn [] rhs

def Classified.alphaEq (lhs rhs : Classified Core) : Bool :=
  lhs.rank == rhs.rank && lhs.type.alphaEq rhs.type && lhs.term.alphaEq rhs.term

end RankedTT
