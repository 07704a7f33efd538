import RankedTT.Core.Basic

/-!
Giving stamps to newly built function bodies. Each lambda without a stamp takes the next unused
number; lambdas that have one keep it, and constants are left as they are.
-/

set_option autoImplicit false
set_option relaxedAutoImplicit false

namespace RankedTT

/-- The next unused stamp. -/
def takeStamp : StateM Nat Nat := modifyGet fun next ↦ (next, next + 1)

mutual

def Core.assignStamps : Core → StateM Nat Core
  | .univ rank => return .univ rank
  | .quant polarity rank domain name codomain => do
    let domain ← domain.assignStamps
    let codomain ← codomain.assignStamps
    return .quant polarity rank domain name codomain
  | .signature members => do
    let members ← members.assignStamps
    return .signature members
  | .lam param stamp body => do
    let stamp ← match stamp with
      | some stamp => pure stamp
      | none => takeStamp
    let body ← body.assignStamps
    return .lam param (some stamp) body
  | .record members => do
    let members ← Core.assignStampsMembers members
    return .record members
  | .app rank type operator operand => do
    let type ← type.assignStamps
    let operator ← operator.assignStamps
    let operand ← operand.assignStamps
    return .app rank type operator operand
  | .proj rank type operator index => do
    let type ← type.assignStamps
    let operator ← operator.assignStamps
    return .proj rank type operator index
  | .var name => return .var name
  | .const value => return .const value

def Telescope.assignStamps : Telescope → StateM Nat Telescope
  | .nil => return .nil
  | .cons rank type name rest => do
    let type ← type.assignStamps
    let rest ← rest.assignStamps
    return .cons rank type name rest

def Core.assignStampsMembers : List Core → StateM Nat (List Core)
  | [] => return []
  | m :: ms => do
    let m ← m.assignStamps
    let ms ← Core.assignStampsMembers ms
    return m :: ms

end

end RankedTT
