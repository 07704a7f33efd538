import RankedTT.Eval.Error
import RankedTT.Journal

/-!
Calling host functions. Integers are those of 64-bit words, and an operation whose result leaves
that range fails. Applying a binary operation to its first operand makes a new function.
-/

set_option autoImplicit false
set_option relaxedAutoImplicit false

namespace RankedTT

def isWord (n : Int) : Bool := -0x8000000000000000 ≤ n && n < 0x8000000000000000

namespace BinaryOp

/-- The operation on integers, absent for strings. -/
def onIntegers? : BinaryOp → Option (Int → Int → Int)
  | plus => some (· + ·)
  | minus => some (· - ·)
  | times => some (· * ·)
  | concat => none

def call (op : BinaryOp) (lhs rhs : Value) : Except HostError Value :=
  match op.onIntegers? with
  | some operation =>
    match lhs, rhs with
    | .int m, .int n =>
      let result := operation m n
      if isWord result then .ok (.int result) else .error (.overflow op)
    | _, _ => .error (.expectedIntegers op lhs rhs)
  | none =>
    match lhs, rhs with
    | .str s, .str t => .ok (.str (s ++ t))
    | _, _ => .error (.expectedStrings op lhs rhs)

/-- An operation succeeds on two integers, if the result is a word, or on two strings. -/
theorem call_eq_ok_iff {op : BinaryOp} {lhs rhs result : Value} :
    op.call lhs rhs = .ok result ↔
      (∃ operation m n, op.onIntegers? = some operation ∧ lhs = .int m ∧ rhs = .int n ∧
        isWord (operation m n) = true ∧ result = .int (operation m n)) ∨
      op.onIntegers? = none ∧ ∃ s t, lhs = .str s ∧ rhs = .str t ∧ result = .str (s ++ t) := by
  unfold call
  cases op.onIntegers? with
  | some operation =>
    cases lhs with
    | int m =>
      cases rhs with
      | int n =>
        by_cases h : isWord (operation m n) = true
        · simpa [h] using eq_comm
        · simp [h]
      | _ => simp
    | _ => simp
  | none =>
    cases lhs with
    | str s =>
      cases rhs with
      | str t => simpa using eq_comm
      | _ => simp
    | _ => simp

end BinaryOp

/-- The half of an even integer. -/
def Value.halve : Value → Except HostError Value
  | .int n => if n % 2 = 0 then .ok (.int (n / 2)) else .error (.expectedEven (.int n))
  | value => .error (.expectedEven value)

theorem Value.halve_eq_ok_iff {v result : Value} :
    v.halve = .ok result ↔ ∃ n, v = .int n ∧ n % 2 = 0 ∧ result = .int (n / 2) := by
  constructor
  · intro h
    cases v with
    | int n =>
      rw [Value.halve] at h
      split at h
      · next heven =>
        injection h with h
        exact ⟨n, rfl, heven, h.symm⟩
      · cases h
    | _ => cases h
  · rintro ⟨n, rfl, heven, rfl⟩
    rw [Value.halve, if_pos heven]

def HostFn.call (function : HostFn) (argument : Value) : Run Journal HostError Value :=
  match function with
  | .binary op => do
    let stamp ← modifyGet Journal.takeStamp
    return .host (.applied op argument stamp)
  | .applied op lhs _ => Run.ofExcept id (op.call lhs argument)
  | .identity => return argument
  | .failing => Run.fail .failure
  | .halving => Run.ofExcept id argument.halve

end RankedTT
