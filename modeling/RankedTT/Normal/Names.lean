import RankedTT.Env
import RankedTT.Core.Basic

/-!
The environment of the normalizer maps each name in scope to its normal form, or to a variable if it
has no value. A binder whose name is already mapped is renamed to a generated name `_0`, `_1`, ...;
a counter keeps the names generated in one normalization apart.
-/

set_option autoImplicit false
set_option relaxedAutoImplicit false

namespace RankedTT

abbrev NormEnv := Env Core

def generatedName (k : Nat) : String := "_" ++ toString k

namespace NormEnv

/-- The first number from `k` on whose generated name is not mapped, looking at no more than `n`
names. -/
def freeIndex (env : NormEnv) : Nat → Nat → Nat
  | 0, k => k
  | n + 1, k => if Env.maps env (generatedName k) then freeIndex env n (k + 1) else k

/-- The next generated name that is not mapped, and the counter after it. An environment maps at
most as many names as it has bindings, so that many rounds are enough. -/
def freshName (env : NormEnv) (counter : Nat) : String × Nat :=
  let k := freeIndex env env.length counter
  (generatedName k, k + 1)

/-- Bring the name of a binder into scope. If it is already mapped, the binder is renamed and both
names are mapped to the new variable; the anonymous binder is never renamed. -/
def bind (env : NormEnv) (name : String) (counter : Nat) : (String × NormEnv) × Nat :=
  if name == anonymous || !Env.maps env name then
    ((name, Env.push env name (.var name)), counter)
  else
    let (fresh, counter) := freshName env counter
    ((fresh, Env.push (Env.push env fresh (.var fresh)) name (.var fresh)), counter)

end NormEnv

end RankedTT
