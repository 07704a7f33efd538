import RankedTT.Eval.Basic
import RankedTT.Normal.Basic

/-!
More fuel keeps a finished answer. A computation refines another if it runs out of fuel or else ends
exactly as the other does, state included; refinement passes through every step of a computation.
Normalization and evaluation with less fuel refine themselves with more, so an answer or an error
that was reached with some fuel is reached with all greater amounts.
-/

set_option autoImplicit false
set_option relaxedAutoImplicit false

namespace RankedTT

namespace Run

variable {σ ε ε' α β : Type}

/-- From every state, `a` runs out of fuel or ends as `b` does. -/
def Refines (a b : Run σ ε α) : Prop :=
  ∀ s, (a.start s).1 = .error .outOfFuel ∨ a.start s = b.start s

theorem Refines.refl (a : Run σ ε α) : Refines a a := fun _ ↦ .inr rfl

theorem Refines.trans {a b c : Run σ ε α} (hab : Refines a b) (hbc : Refines b c) :
    Refines a c := by
  intro s
  rcases hab s with h | h
  · exact .inl h
  · rw [h]
    exact hbc s

theorem refines_outOfFuel (b : Run σ ε α) : Refines outOfFuel b := fun _ ↦ .inl rfl

theorem start_bind (a : Run σ ε α) (f : α → Run σ ε β) (s : σ) :
    (a >>= f).start s = match a.start s with
      | (.ok x, s') => (f x).start s'
      | (.error stop, s') => (.error stop, s') := by
  simp only [start, ExceptT.run_bind, StateT.run_bind]
  generalize StateT.run (ExceptT.run a) s = r
  obtain ⟨⟨stop⟩ | ⟨x⟩, s'⟩ := r <;> rfl

theorem Refines.bind {a a' : Run σ ε α} {f f' : α → Run σ ε β} (h : Refines a a')
    (hf : ∀ x, Refines (f x) (f' x)) : Refines (a >>= f) (a' >>= f') := by
  intro s
  simp only [start_bind]
  rcases h s with h | h
  · left
    rcases hr : a.start s with ⟨⟨stop⟩ | x, s'⟩ <;> simp_all
  · rw [← h]
    rcases a.start s with ⟨⟨stop⟩ | x, s'⟩
    · exact .inr rfl
    · exact hf x s'

theorem Refines.mapM {f g : α → Run σ ε β} (h : ∀ x, Refines (f x) (g x)) (xs : List α) :
    Refines (xs.mapM f) (xs.mapM g) := by
  induction xs with
  | nil => exact .refl _
  | cons x xs ih =>
    simp only [List.mapM_cons]
    exact (h x).bind fun _ ↦ ih.bind fun _ ↦ .refl _

/-- What ends without running out of fuel ends in the same way in every refinement. -/
theorem Refines.start_eq {a b : Run σ ε α} (h : Refines a b) {s : σ}
    (hs : (a.start s).1 ≠ .error .outOfFuel) : b.start s = a.start s := by
  rcases h s with h | h
  · exact absurd h hs
  · exact h.symm

end Run

open Run

theorem Telescope.normalizeWith_refines {σ ε : Type} {f g : NormEnv → Core → Run σ ε Core}
    (h : ∀ env t, Refines (f env t) (g env t)) (members : Telescope) (env : NormEnv) :
    Refines (members.normalizeWith f env) (members.normalizeWith g env) := by
  cases members with
  | nil => exact .refl _
  | cons rank type name rest =>
    simp only [Telescope.normalizeWith]
    exact (h _ _).bind fun _ ↦ (rest.normalizeWith_refines h _).bind fun _ ↦ .refl _

theorem Core.normalize_refines_succ (fuel : Nat) (env : NormEnv) (t : Core) :
    Refines (t.normalize fuel env) (t.normalize (fuel + 1) env) := by
  induction fuel generalizing env t with
  | zero => exact refines_outOfFuel _
  | succ fuel ih =>
    cases t with
    | univ | const | var => exact .refl _
    | quant =>
      simp only [Core.normalize]
      exact (ih _ _).bind fun _ ↦ (Refines.refl _).bind fun _ ↦ (ih _ _).bind fun _ ↦ .refl _
    | signature members =>
      simp only [Core.normalize]
      exact (members.normalizeWith_refines ih _).bind fun _ ↦ .refl _
    | lam =>
      simp only [Core.normalize]
      exact (Refines.refl _).bind fun _ ↦ (ih _ _).bind fun _ ↦ .refl _
    | record members =>
      simp only [Core.normalize]
      exact (Refines.mapM (ih env) members).bind fun _ ↦ .refl _
    | app =>
      simp only [Core.normalize]
      refine (ih _ _).bind fun operator ↦ (ih _ _).bind fun operand ↦ ?_
      split
      · exact ih _ _
      · exact (ih _ _).bind fun _ ↦ .refl _
    | proj =>
      simp only [Core.normalize]
      refine (ih _ _).bind fun operator ↦ ?_
      split
      · exact .refl _
      · exact (ih _ _).bind fun _ ↦ .refl _

theorem Core.normalize_refines {m n : Nat} (h : m ≤ n) (env : NormEnv) (t : Core) :
    Refines (t.normalize m env) (t.normalize n env) := by
  induction h with
  | refl => exact .refl _
  | step _ ih => exact ih.trans (t.normalize_refines_succ _ env)

theorem Value.applyWith_refines {f g : Env Value → Core → Eval Value}
    (h : ∀ env t, Refines (f env t) (g env t)) (function argument : Value) :
    Refines (function.applyWith f argument) (function.applyWith g argument) := by
  cases function with
  | closure env param stamp body => exact h _ _
  | absent | int | str | record | host => exact .refl _

theorem Core.evalWith_refines {f g : Env Value → Core → Eval Value}
    (h : ∀ env t, Refines (f env t) (g env t)) (env : Env Value) (t : Core) :
    Refines (t.evalWith f env) (t.evalWith g env) := by
  cases t with
  | univ | quant | signature | lam | var | const => exact .refl _
  | record members => exact (Refines.mapM (h env) members).bind fun _ ↦ .refl _
  | app =>
    exact (h _ _).bind fun function ↦ (h _ _).bind fun argument ↦
      function.applyWith_refines h argument
  | proj => exact (h _ _).bind fun _ ↦ .refl _

theorem Core.eval_refines_succ (fuel : Nat) (env : Env Value) (t : Core) :
    Refines (t.eval fuel env) (t.eval (fuel + 1) env) := by
  induction fuel generalizing env t with
  | zero => exact refines_outOfFuel _
  | succ fuel ih =>
    rw [Core.eval_succ fuel, Core.eval_succ (fuel + 1)]
    exact (t.evalWith_refines ih env).bind fun _ ↦ .refl _

theorem Core.eval_refines {m n : Nat} (h : m ≤ n) (env : Env Value) (t : Core) :
    Refines (t.eval m env) (t.eval n env) := by
  induction h with
  | refl => exact .refl _
  | step _ ih => exact ih.trans (t.eval_refines_succ _ env)

end RankedTT
