/-!
Computations that may fail or run out of fuel. Recursion that the data do not bound is bounded by
fuel: a number that drops at every call. Running out of fuel is an outcome of its own, apart from
every error, and an answer or an error that was reached does not change with more fuel. What a
computation did to its state stays done when it stops.
-/

set_option autoImplicit false
set_option relaxedAutoImplicit false

namespace RankedTT

inductive Stop (ε : Type) where
  | error (cause : ε)
  | outOfFuel
deriving DecidableEq, Repr

namespace Stop

def map {ε ε' : Type} (f : ε → ε') : Stop ε → Stop ε'
  | error cause => error (f cause)
  | outOfFuel => outOfFuel

end Stop

/-- Fuel for ordinary use, far beyond what a machine stack allows. -/
def standardFuel : Nat := 1000000

abbrev Outcome (ε α : Type) := Except (Stop ε) α

/-- Computations on a state that end in an answer, an error, or out of fuel. -/
abbrev Run (σ ε α : Type) := ExceptT (Stop ε) (StateM σ) α

namespace Run

variable {σ ε ε' α : Type}

def fail (cause : ε) : Run σ ε α := throw (.error cause)

def outOfFuel : Run σ ε α := throw .outOfFuel

def ofOutcome (outcome : Outcome ε α) : Run σ ε α := ExceptT.mk (pure outcome)

def ofOption (cause : ε) : Option α → Run σ ε α
  | some answer => pure answer
  | none => fail cause

/-- An answer or an error, under the name that the error has here. -/
def ofExcept (f : ε' → ε) : Except ε' α → Run σ ε α
  | .ok answer => pure answer
  | .error cause => fail (f cause)

/-- Rename the causes of failure. -/
def mapError (f : ε → ε') (action : Run σ ε α) : Run σ ε' α :=
  ExceptT.mk do
    let outcome ← ExceptT.run action
    return outcome.mapError (Stop.map f)

/-- The outcome and the state in which a computation ends. -/
def start (action : Run σ ε α) (state : σ) : Outcome ε α × σ :=
  StateT.run (ExceptT.run action) state

/-- The outcome alone. -/
def outcome (action : Run σ ε α) (state : σ) : Outcome ε α := (start action state).1

end Run

end RankedTT
