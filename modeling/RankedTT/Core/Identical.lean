import RankedTT.Core.Basic

/-!
Equality of values and of core terms as the program sees it. Values are compared by content, except
for functions: two closures are equal if they have the same parameter and the same body, where a
body is known by its stamp, and the environments that they captured are not compared; two partially
applied operations are equal if they are the same application. Core terms are compared by content,
names of binders included and stamps of lambdas left aside.
-/

set_option autoImplicit false
set_option relaxedAutoImplicit false

namespace RankedTT

def HostFn.identical : HostFn → HostFn → Bool
  | .binary op, .binary op' => op == op'
  | .applied op _ stamp, .applied op' _ stamp' => op == op' && stamp == stamp'
  | .identity, .identity => true
  | .failing, .failing => true
  | .halving, .halving => true
  | _, _ => false

mutual

def Value.identical : Value → Value → Bool
  | .absent, .absent => true
  | .int m, .int n => m == n
  | .str s, .str t => s == t
  | .record ms, .record ns => Value.identicalMembers ms ns
  | .closure _ param stamp _, .closure _ param' stamp' _ => param == param' && stamp == stamp'
  | .host f, .host g => f.identical g
  | _, _ => false

def Value.identicalMembers : List Value → List Value → Bool
  | [], [] => true
  | m :: ms, n :: ns => m.identical n && Value.identicalMembers ms ns
  | _, _ => false

end

instance : BEq Value := ⟨Value.identical⟩

mutual

def Core.identical : Core → Core → Bool
  | .univ m, .univ n => m == n
  | .quant pol rank domain name codomain, .quant pol' rank' domain' name' codomain' =>
    pol == pol' && rank == rank' && domain.identical domain' && name == name' &&
      codomain.identical codomain'
  | .signature ms, .signature ns => ms.identical ns
  | .lam param _ body, .lam param' _ body' => param == param' && body.identical body'
  | .record ms, .record ns => Core.identicalMembers ms ns
  | .app rank type operator operand, .app rank' type' operator' operand' =>
    rank == rank' && type.identical type' && operator.identical operator' &&
      operand.identical operand'
  | .proj rank type operator index, .proj rank' type' operator' index' =>
    rank == rank' && type.identical type' && operator.identical operator' && index == index'
  | .var x, .var y => x == y
  | .const v, .const w => v == w
  | _, _ => false

def Telescope.identical : Telescope → Telescope → Bool
  | .nil, .nil => true
  | .cons rank type name rest, .cons rank' type' name' rest' =>
    rank == rank' && type.identical type' && name == name' && rest.identical rest'
  | _, _ => false

def Core.identicalMembers : List Core → List Core → Bool
  | [], [] => true
  | m :: ms, n :: ns => m.identical n && Core.identicalMembers ms ns
  | _, _ => false

end

instance : BEq Core := ⟨Core.identical⟩

def Classified.identical (lhs rhs : Classified Core) : Bool :=
  lhs.rank == rhs.rank && lhs.type == rhs.type && lhs.term == rhs.term

instance : BEq (Classified Core) := ⟨Classified.identical⟩

end RankedTT
