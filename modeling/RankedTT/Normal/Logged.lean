import RankedTT.Journal

/-!
Normalization with a message about each normal form that was found.
-/

set_option autoImplicit false
set_option relaxedAutoImplicit false

namespace RankedTT

/-- Normalize a term; the state is the counter of generated names and the journal. -/
def Core.normalizeLogged (fuel : Nat) (env : NormEnv) (t : Core) :
    Run (Nat × Journal) BadProjection Core :=
  ExceptT.mk fun (counter, journal) ↦
    let (outcome, counter) := (t.normalize fuel env).start counter
    match outcome with
    | .ok normalForm => (.ok normalForm, counter, journal.record (.normalized env t normalForm))
    | .error stop => (.error stop, counter, journal)

end RankedTT
