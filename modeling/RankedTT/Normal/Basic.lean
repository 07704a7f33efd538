import RankedTT.Core.Subst
import RankedTT.Normal.Names
import RankedTT.Run

/-!
Normalization of core terms under an environment. Names in scope are replaced by their values, the
application of a lambda is replaced by its body with the normal form of the operand substituted, and
the projection of a record is replaced by its member, everywhere in a term, types recorded on
operators included. A body in normal form has met the environment already, so a reduct is normalized
again under the empty one. Core terms need not be well typed, so normalization takes fuel.
-/

set_option autoImplicit false
set_option relaxedAutoImplicit false

namespace RankedTT

/-- A projection from a record that has too few members. -/
structure BadProjection where
  index : Nat
  record : Core

/-- The members of a record type in turn. A member keeps its name and stands for itself in the
members after it. -/
def Telescope.normalizeWith {σ ε : Type} (normalize : NormEnv → Core → Run σ ε Core)
    (env : NormEnv) : Telescope → Run σ ε Telescope
  | .nil => return .nil
  | .cons rank type name rest => do
    let type ← normalize env type
    let rest ← rest.normalizeWith normalize (Env.push env name (.var name))
    return .cons rank type name rest

/-- Normalize a term; the state is the counter of generated names. -/
def Core.normalize : Nat → NormEnv → Core → Run Nat BadProjection Core
  | 0, _, _ => Run.outOfFuel
  | _ + 1, _, .univ rank => return .univ rank
  | _ + 1, _, .const value => return .const value
  | _ + 1, env, .var name => return (Env.get? env name).getD (.var name)
  | fuel + 1, env, .quant polarity rank domain name codomain => do
    let domain ← normalize fuel env domain
    let (name, env) ← modifyGet (NormEnv.bind env name)
    let codomain ← normalize fuel env codomain
    return .quant polarity rank domain name codomain
  | fuel + 1, env, .signature members => do
    let members ← members.normalizeWith (normalize fuel) env
    return .signature members
  | fuel + 1, env, .lam param _ body => do
    let (param, env) ← modifyGet (NormEnv.bind env param)
    let body ← normalize fuel env body
    return .lam param none body
  | fuel + 1, env, .record members => do
    let members ← members.mapM (normalize fuel env)
    return .record members
  | fuel + 1, env, .app rank type operator operand => do
    let operator ← normalize fuel env operator
    let operand ← normalize fuel env operand
    match operator with
    | .lam param _ body => normalize fuel [] (body.subst (.single param operand))
    | _ =>
      let type ← normalize fuel env type
      return .app rank type operator operand
  | fuel + 1, env, .proj rank type operator index => do
    let operator ← normalize fuel env operator
    match operator with
    | .record members =>
      match members[index]? with
      | some member => return member
      | none => Run.fail ⟨index, operator⟩
    | _ =>
      let type ← normalize fuel env type
      return .proj rank type operator index

/-- The normal form of a term, with a new counter. -/
def Core.normalForm (fuel : Nat) (env : NormEnv) (t : Core) : Outcome BadProjection Core :=
  (t.normalize fuel env).outcome 0

end RankedTT
