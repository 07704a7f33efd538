import RankedTT.Module.Source
import RankedTT.Session.Error

/-!
Overlays of sources. A source keeps its modules in memory, or it lies over another one and falls
back to it; either side may be an overlay in turn. An overlay asks its sides only what it can be
asked itself. It reads from the second side what the first one does not have, it writes to the
second side only what that side alone has, and it forgets on the second side only what the first one
did not have.
-/

set_option autoImplicit false
set_option relaxedAutoImplicit false

namespace RankedTT

inductive Overlay where
  | memory (modules : Layer)
  | overlaid (first second : Overlay)

namespace Overlay

def has (name : String) : Overlay → Bool
  | memory modules => modules.has name
  | overlaid first second => first.has name || second.has name

/-- Only a module that is not found is looked for on the second side; any other failure of the first
side is a failure of the overlay. -/
def read (name : String) : Overlay → Except SessionError Term
  | memory modules =>
    match List.lookup name modules with
    | some program => .ok program
    | none => .error (.moduleNotFound name)
  | overlaid first second =>
    match first.read name with
    | .ok program => .ok program
    | .error (.moduleNotFound _) => second.read name
    | .error cause => .error cause

def write (name : String) (program : Term) : Overlay → Except SessionError Overlay
  | memory modules => .ok (memory (modules.insert name program))
  | overlaid first second =>
    if first.has name || !second.has name then do
      return overlaid (← first.write name program) second
    else do
      return overlaid first (← second.write name program)

/-- Whether there was a module to forget, and what is left. -/
def forget (name : String) : Overlay → Bool × Overlay
  | memory modules => (modules.has name, memory (modules.erase name))
  | overlaid first second =>
    match first.forget name with
    | (true, first) => (true, overlaid first second)
    | (false, first) =>
      let (found, second) := second.forget name
      (found, overlaid first second)

/-- The memories from left to right. -/
def layers : Overlay → Source
  | memory modules => [modules]
  | overlaid first second => first.layers ++ second.layers

end Overlay

end RankedTT
