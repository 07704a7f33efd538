import RankedTT.Eval.Host

/-!
Evaluation of core terms by value, in an environment of values. Types and universes evaluate to the
absent value, a lambda to a closure over the environment.
-/

set_option autoImplicit false
set_option relaxedAutoImplicit false

namespace RankedTT

abbrev Eval (α : Type) := Run Journal RuntimeError α

/-- Apply a function value, given how to evaluate the body of a closure. -/
def Value.applyWith (eval : Env Value → Core → Eval Value) (function argument : Value) :
    Eval Value :=
  match function with
  | .closure env param _ body => eval (Env.push env param argument) body
  | .host function => Run.mapError .host (function.call argument)
  | other => Run.fail (.notAFunction other)

def Value.project (record : Value) (index : Nat) : Eval Value :=
  match record with
  | .record members => Run.ofOption (.memberOutOfRange record index) members[index]?
  | other => Run.fail (.notARecord other)

/-- The value of a term, given how to evaluate its parts. -/
def Core.evalWith (eval : Env Value → Core → Eval Value) (env : Env Value) : Core → Eval Value
  | .univ _ | .quant .. | .signature _ => return .absent
  | .lam param stamp body => return .closure env param stamp body
  | .record members => do
    let members ← members.mapM (eval env)
    return .record members
  | .app _ _ operator operand => do
    let function ← eval env operator
    let argument ← eval env operand
    function.applyWith eval argument
  | .proj _ _ operator index => do
    let record ← eval env operator
    record.project index
  | .var name => Run.ofExcept .unbound (Env.lookup env name)
  | .const value => return value

def Core.eval : Nat → Env Value → Core → Eval Value
  | 0, _, _ => Run.outOfFuel
  | fuel + 1, env, t => do
    let value ← t.evalWith (eval fuel) env
    modify (Journal.record (.evaluated t value))
    return value

theorem Core.eval_succ (fuel : Nat) (env : Env Value) (t : Core) :
    t.eval (fuel + 1) env = do
      let value ← t.evalWith (Core.eval fuel) env
      modify (Journal.record (.evaluated t value))
      return value := rfl

/-- Apply a closure or a host function. -/
def Value.apply (fuel : Nat) (function argument : Value) : Eval Value :=
  function.applyWith (Core.eval fuel) argument

/-- Evaluate a term of the base universe. -/
def evaluate (fuel : Nat) (env : Env Value) (judgement : Classified Core) : Eval Value :=
  if judgement.rank = 0 then judgement.term.eval fuel env
  else Run.fail (.notAValue judgement.term judgement.rank)

end RankedTT
