import RankedTT.Core.Alpha
import RankedTT.Normal.Basic
import RankedTT.Typing.Error

/-!
Definitional equality. Two judgements are equal if they have the same rank and if their types and
their terms have normal forms that agree up to the names of binders. Each normal form is computed
with its own counter of generated names.
-/

set_option autoImplicit false
set_option relaxedAutoImplicit false

namespace RankedTT

namespace Classified

def isEqualTo (fuel : Nat) (env : NormEnv) (lhs rhs : Classified Core) :
    Outcome BadProjection Bool := do
  if lhs.rank != rhs.rank then return false
  let lhsType ← lhs.type.normalForm fuel env
  let rhsType ← rhs.type.normalForm fuel env
  if !lhsType.alphaEq rhsType then return false
  let lhsTerm ← lhs.term.normalForm fuel env
  let rhsTerm ← rhs.term.normalForm fuel env
  return lhsTerm.alphaEq rhsTerm

/-- Type and term in normal form, with one counter for both. -/
def normalize (fuel : Nat) (env : NormEnv) (judgement : Classified Core) :
    Run Nat BadProjection (Classified Core) := do
  let type ← judgement.type.normalize fuel env
  let term ← judgement.term.normalize fuel env
  return ⟨judgement.rank, type, term⟩

def normalForm (fuel : Nat) (env : NormEnv) (judgement : Classified Core) :
    Outcome BadProjection (Classified Core) :=
  (judgement.normalize fuel env).outcome 0

/-- Why a found judgement is not the expected one, if it is not. -/
def mismatch? (fuel : Nat) (env : NormEnv) (found expected : Classified Core) :
    Outcome BadProjection (Option TypeError) := do
  if ← isEqualTo fuel env found expected then return none
  let lhs ← found.normalForm fuel env
  let rhs ← expected.normalForm fuel env
  return some (.notEqual lhs rhs expected)

end Classified

end RankedTT
