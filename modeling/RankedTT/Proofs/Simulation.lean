import RankedTT.Proofs.Returns
import Mathlib.Data.List.Forall2

/-!
One computation following another. The two may have states and errors of different types; a
simulation says which states belong together. Wherever the first computation answers, the second
answers too, with a related answer; where the first fails, only the cause of the failure is known.

What the second computation does may depend on how the first one ends: an oracle may hold answers
that the first computation has yet to find. A simulation therefore also names a property that is
known of the state at the end, and has to be traced back to all states before.
-/

set_option autoImplicit false
set_option relaxedAutoImplicit false

namespace RankedTT

/-- How the states of two computations are related. -/
structure Simulation (σ σ' : Type) where
  /-- The states that belong together. -/
  states : σ → σ' → Prop
  /-- What is known of the last state of the first computation. -/
  settled : σ → Prop

namespace Run

variable {σ σ' ε ε' ε₁ ε₁' α α' β β' : Type}

/-- How a computation ends, seen from another one that is started in `s'`. -/
def EndsWith (M : Simulation σ σ') (F : ε → Prop) (R : α → α' → Prop) (b : Run σ' ε' α') (s' : σ') :
    Outcome ε α × σ → Prop
  | (.ok x, s₁) => ∃ y s₁', b.Returns s' y s₁' ∧ M.states s₁ s₁' ∧ R x y
  | (.error stop, _) => ∀ cause, stop = .error cause → F cause

/-- The second computation follows the first one: answers are related by `R`, and the causes of
failure have the property `F`. -/
def Follows (M : Simulation σ σ') (F : ε → Prop) (R : α → α' → Prop) (a : Run σ ε α)
    (b : Run σ' ε' α') : Prop :=
  ∀ s, M.settled (a.start s).2 → M.settled s ∧
    ∀ s', M.states s s' → EndsWith M F R b s' (a.start s)

namespace Follows

variable {M : Simulation σ σ'} {F : ε → Prop} {R : α → α' → Prop} {Q : β → β' → Prop}

theorem returns {a : Run σ ε α} {b : Run σ' ε' α'} (h : Follows M F R a b) {s s₁ : σ} {x : α}
    (hreturns : a.Returns s x s₁) (hsettled : M.settled s₁) (s' : σ') (hstates : M.states s s') :
    ∃ y s₁', b.Returns s' y s₁' ∧ M.states s₁ s₁' ∧ R x y := by
  have hends := h s
  rw [hreturns] at hends
  exact (hends hsettled).2 s' hstates

theorem pure {x : α} {y : α'} (h : R x y) :
    Follows M F R (Pure.pure x : Run σ ε α) (Pure.pure y : Run σ' ε' α') :=
  fun _ hsettled ↦ ⟨hsettled, fun s' hstates ↦ ⟨y, s', rfl, hstates, h⟩⟩

theorem stop {reason : Stop ε} {b : Run σ' ε' α'} (h : ∀ cause, reason = .error cause → F cause) :
    Follows M F R (throw reason : Run σ ε α) b :=
  fun _ hsettled ↦ ⟨hsettled, fun _ _ ↦ h⟩

theorem fail {cause : ε} {b : Run σ' ε' α'} (h : F cause) :
    Follows M F R (Run.fail cause : Run σ ε α) b :=
  stop fun _ hcause ↦ by
    injection hcause with hcause
    exact hcause ▸ h

theorem outOfFuel {b : Run σ' ε' α'} : Follows M F R (Run.outOfFuel : Run σ ε α) b :=
  stop fun _ hcause ↦ by cases hcause

/-- To trace the property of the last state back through the second step, some answer has to be
related to that of the first step, whether the second side gives one or not. -/
theorem bind {a : Run σ ε α} {b : Run σ' ε' α'} {f : α → Run σ ε β} {g : α' → Run σ' ε' β'}
    (htotal : ∀ s, ¬ M.settled s → ∀ x, ∃ y, R x y) (ha : Follows M F R a b)
    (hf : ∀ x y, R x y → Follows M F Q (f x) (g y)) : Follows M F Q (a >>= f) (b >>= g) := by
  intro s hsettled
  have hends := ha s
  rw [start_bind] at hsettled ⊢
  generalize a.start s = r at hends hsettled
  obtain ⟨⟨stop⟩ | x, s₁⟩ := r
  · exact hends hsettled
  · have hmid : M.settled s₁ := by
      by_contra hnot
      obtain ⟨y, hxy⟩ := htotal s₁ hnot x
      exact hnot (hf x y hxy s₁ hsettled).1
    obtain ⟨hstart, hends⟩ := hends hmid
    refine ⟨hstart, fun s' hstates ↦ ?_⟩
    obtain ⟨y, s₁', hb, hstates₁, hxy⟩ := hends s' hstates
    have hrest := (hf x y hxy s₁ hsettled).2 s₁' hstates₁
    dsimp only at hrest ⊢
    generalize (f x).start s₁ = r at hrest
    obtain ⟨⟨stop⟩ | z, s₂⟩ := r
    · exact hrest
    · obtain ⟨w, s₂', hg, hstates₂, hzw⟩ := hrest
      exact ⟨w, s₂', returns_bind_iff.mpr ⟨y, s₁', hb, hg⟩, hstates₂, hzw⟩

theorem mapError {F' : ε₁ → Prop} {f : ε → ε₁} {f' : ε' → ε₁'} {a : Run σ ε α} {b : Run σ' ε' α'}
    (h : Follows M F R a b) (hF : ∀ cause, F cause → F' (f cause)) :
    Follows M F' R (Run.mapError f a) (Run.mapError f' b) := by
  intro s hsettled
  rw [start_mapError] at hsettled ⊢
  obtain ⟨hstart, hends⟩ := h s hsettled
  refine ⟨hstart, fun s' hstates ↦ ?_⟩
  have hends := hends s' hstates
  generalize a.start s = r at hends
  obtain ⟨⟨⟨cause⟩ | _⟩ | x, s₁⟩ := r
  · intro cause' hcause
    injection hcause with hcause
    exact hcause ▸ hF cause (hends cause rfl)
  · intro _ hcause
    cases hcause
  · obtain ⟨y, s₁', hb, hstates₁, hxy⟩ := hends
    exact ⟨y, s₁', returns_mapError_iff.mpr hb, hstates₁, hxy⟩

theorem modifyGet {f : σ → α × σ} {g : σ' → α' × σ'}
    (hsettled : ∀ s, M.settled (f s).2 → M.settled s)
    (h : ∀ s s', M.states s s' → M.states (f s).2 (g s').2 ∧ R (f s).1 (g s').1) :
    Follows M F R (MonadState.modifyGet f : Run σ ε α) (MonadState.modifyGet g : Run σ' ε' α') :=
  fun s hs ↦ ⟨hsettled s hs, fun s' hstates ↦
    ⟨(g s').1, (g s').2, rfl, (h s s' hstates).1, (h s s' hstates).2⟩⟩

theorem ofOption {o : Option α} {o' : Option α'} {cause : ε} {cause' : ε'} (hF : F cause)
    (h : ∀ x, o = some x → ∃ y, o' = some y ∧ R x y) :
    Follows M F R (Run.ofOption cause o : Run σ ε α) (Run.ofOption cause' o') := by
  cases o with
  | none => exact fail hF
  | some x =>
    obtain ⟨y, rfl, hxy⟩ := h x rfl
    exact pure hxy

theorem ofExcept {e : Except ε₁ α} {e' : Except ε₁' α'} {f : ε₁ → ε} {f' : ε₁' → ε'}
    (hF : ∀ cause, F (f cause)) (h : ∀ x, e = .ok x → ∃ y, e' = .ok y ∧ R x y) :
    Follows M F R (Run.ofExcept f e : Run σ ε α) (Run.ofExcept f' e') := by
  cases e with
  | error cause => exact fail (hF cause)
  | ok x =>
    obtain ⟨y, rfl, hxy⟩ := h x rfl
    exact pure hxy

theorem ofOutcome {o : Outcome ε α} {o' : Outcome ε' α'} (hF : ∀ cause, F cause)
    (h : ∀ x, o = .ok x → ∃ y, o' = .ok y ∧ R x y) :
    Follows M F R (Run.ofOutcome o : Run σ ε α) (Run.ofOutcome o') := by
  cases o with
  | error reason => exact stop fun cause _ ↦ hF cause
  | ok x =>
    obtain ⟨y, rfl, hxy⟩ := h x rfl
    exact pure hxy

theorem mapM {P : β → β' → Prop} {f : β → Run σ ε α} {g : β' → Run σ' ε' α'} {xs : List β}
    {ys : List β'} (htotal : ∀ s, ¬ M.settled s → ∀ x, ∃ y, R x y)
    (hf : ∀ x y, P x y → Follows M F R (f x) (g y)) (hxs : List.Forall₂ P xs ys) :
    Follows M F (List.Forall₂ R) (xs.mapM f) (ys.mapM g) := by
  induction hxs with
  | nil => exact pure .nil
  | @cons x y xs ys hhead _ ih =>
    have htotals : ∀ s, ¬ M.settled s → ∀ zs, ∃ ws, List.Forall₂ R zs ws := by
      intro s hs zs
      induction zs with
      | nil => exact ⟨[], .nil⟩
      | cons z zs ih =>
        obtain ⟨w, hw⟩ := htotal s hs z
        obtain ⟨ws, hws⟩ := ih
        exact ⟨w :: ws, .cons hw hws⟩
    simp only [List.mapM_cons]
    exact bind htotal (hf x y hhead) fun z w hzw ↦ bind htotals ih fun zs ws hzws ↦
      pure (.cons hzw hzws)

end Follows

end Run

end RankedTT
