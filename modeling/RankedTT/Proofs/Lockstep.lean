import RankedTT.Proofs.JournalGrowth
import Mathlib.Data.List.Forall2

/-!
Two computations in lockstep: both answer, and their answers are related, both fail, or both run out
of fuel. Nothing is said of the causes of failure. What is known of the events of the first
computation is known in the end, and therefore, as journals only grow, at every step.
-/

set_option autoImplicit false
set_option relaxedAutoImplicit false

namespace RankedTT

namespace Run

variable {σ σ' ε ε' ε₁ ε₁' α α' β β' : Type}

/-- Outcomes of the same kind, with related answers. -/
inductive Agree (R : α → α' → Prop) : Outcome ε α → Outcome ε' α' → Prop
  | ok {x : α} {y : α'} (h : R x y) : Agree R (.ok x) (.ok y)
  | error (cause : ε) (cause' : ε') : Agree R (.error (.error cause)) (.error (.error cause'))
  | outOfFuel : Agree R (.error .outOfFuel) (.error .outOfFuel)

namespace Agree

variable {R : α → α' → Prop} {Q : β → β' → Prop} {o : Outcome ε α} {o' : Outcome ε' α'}

theorem mono {R' : α → α' → Prop} (h : Agree R o o') (hR : ∀ x y, R x y → R' x y) :
    Agree R' o o' := by
  cases h with
  | ok h => exact .ok (hR _ _ h)
  | error => exact .error _ _
  | outOfFuel => exact .outOfFuel

theorem bind {f : α → Outcome ε β} {g : α' → Outcome ε' β'} (h : Agree R o o')
    (hf : ∀ x y, R x y → Agree Q (f x) (g y)) : Agree Q (o >>= f) (o' >>= g) := by
  cases h with
  | ok h => exact hf _ _ h
  | error => exact .error _ _
  | outOfFuel => exact .outOfFuel

theorem mapError (h : Agree R o o') (f : ε → ε₁) (f' : ε' → ε₁') :
    Agree R (o.mapError (Stop.map f)) (o'.mapError (Stop.map f')) := by
  cases h with
  | ok h => exact .ok h
  | error => exact .error _ _
  | outOfFuel => exact .outOfFuel

theorem map {f : α → β} {g : α' → β'} (h : Agree R o o') (hf : ∀ x y, R x y → Q (f x) (g y)) :
    Agree Q (o.map f) (o'.map g) := by
  cases h with
  | ok h => exact .ok (hf _ _ h)
  | error => exact .error _ _
  | outOfFuel => exact .outOfFuel

/-- Two outcomes that agree with a third one agree. -/
theorem trans_symm {α'' : Type} {R' : α'' → α' → Prop} {o'' : Outcome ε₁ α''} (h : Agree R o o')
    (h' : Agree R' o'' o') : Agree (fun x z ↦ ∃ y, R x y ∧ R' z y) o o'' := by
  cases h with
  | ok h =>
    cases h' with
    | ok h' => exact .ok ⟨_, h, h'⟩
  | error =>
    cases h' with
    | error => exact .error _ _
  | outOfFuel =>
    cases h' with
    | outOfFuel => exact .outOfFuel

end Agree

/-- Which states belong together, and what is known of the events of the first computation. -/
structure Pace (σ σ' : Type) where
  states : σ → σ' → Prop
  clear : Event → Prop

variable [Journaled σ]

/-- From states that belong together, the computations have outcomes of the same kind, with answers
related by `R`, if all events of the first one are clear. -/
def Lockstep (M : Pace σ σ') (R : α → α' → Prop) (a : Run σ ε α) (b : Run σ' ε' α') : Prop :=
  ∀ s s', M.states s s' → (∀ e ∈ events (a.start s).2, M.clear e) →
    M.states (a.start s).2 (b.start s').2 ∧ Agree R (a.start s).1 (b.start s').1

namespace Lockstep

variable {M : Pace σ σ'} {R : α → α' → Prop} {Q : β → β' → Prop}

theorem mono {R' : α → α' → Prop} {a : Run σ ε α} {b : Run σ' ε' α'} (h : Lockstep M R a b)
    (hR : ∀ x y, R x y → R' x y) : Lockstep M R' a b := by
  intro s s' hstates hclear
  obtain ⟨hstates, hagree⟩ := h s s' hstates hclear
  exact ⟨hstates, hagree.mono hR⟩

theorem pure {x : α} {y : α'} (h : R x y) :
    Lockstep M R (Pure.pure x : Run σ ε α) (Pure.pure y : Run σ' ε' α') :=
  fun _ _ hstates _ ↦ ⟨hstates, .ok h⟩

theorem fail {cause : ε} {cause' : ε'} :
    Lockstep M R (Run.fail cause : Run σ ε α) (Run.fail cause' : Run σ' ε' α') :=
  fun _ _ hstates _ ↦ ⟨hstates, .error cause cause'⟩

theorem outOfFuel : Lockstep M R (Run.outOfFuel : Run σ ε α) (Run.outOfFuel : Run σ' ε' α') :=
  fun _ _ hstates _ ↦ ⟨hstates, .outOfFuel⟩

theorem ofOutcome {o : Outcome ε α} {o' : Outcome ε' α'} (h : Agree R o o') :
    Lockstep M R (Run.ofOutcome o : Run σ ε α) (Run.ofOutcome o' : Run σ' ε' α') :=
  fun _ _ hstates _ ↦ ⟨hstates, h⟩

theorem ofOption {cause : ε} {cause' : ε'} {o : Option α} {o' : Option α'}
    (h : Option.Rel R o o') :
    Lockstep M R (Run.ofOption cause o : Run σ ε α) (Run.ofOption cause' o' : Run σ' ε' α') := by
  cases h with
  | none => exact fail
  | some h => exact pure h

theorem mapError {a : Run σ ε α} {b : Run σ' ε' α'} (h : Lockstep M R a b) (f : ε → ε₁)
    (f' : ε' → ε₁') : Lockstep M R (Run.mapError f a) (Run.mapError f' b) := by
  intro s s' hstates hclear
  obtain ⟨hstates, hagree⟩ := h s s' hstates hclear
  exact ⟨hstates, hagree.mapError f f'⟩

theorem modifyGet {f : σ → α × σ} {g : σ' → α' × σ'}
    (h : ∀ s s', M.states s s' → M.states (f s).2 (g s').2 ∧ R (f s).1 (g s').1) :
    Lockstep M R (MonadState.modifyGet f : Run σ ε α) (MonadState.modifyGet g : Run σ' ε' α') :=
  fun s s' hstates _ ↦ ⟨(h s s' hstates).1, .ok (h s s' hstates).2⟩

/-- The events of the first step are still there after the second one. -/
theorem bind_of_grows {a : Run σ ε α} {b : Run σ' ε' α'} {f : α → Run σ ε β}
    {g : α' → Run σ' ε' β'} (ha : Lockstep M R a b) (hgrows : ∀ x, (f x).Grows)
    (hf : ∀ x y, R x y → Lockstep M Q (f x) (g y)) : Lockstep M Q (a >>= f) (b >>= g) := by
  intro s s' hstates hclear
  have hfirst := ha s s' hstates
  rw [start_bind] at hclear ⊢
  rw [start_bind]
  generalize a.start s = r at hfirst hclear
  generalize b.start s' = r' at hfirst
  obtain ⟨stop | x, s₁⟩ := r
  · obtain ⟨hstates₁, hagree⟩ := hfirst hclear
    obtain ⟨o', s₁'⟩ := r'
    cases hagree with
    | error => exact ⟨hstates₁, .error _ _⟩
    | outOfFuel => exact ⟨hstates₁, .outOfFuel⟩
  · have hgrown : events s₁ <:+ events ((f x).start s₁).2 := (hgrows x).grows s₁
    obtain ⟨hstates₁, hagree⟩ := hfirst fun e he ↦ hclear e (hgrown.subset he)
    obtain ⟨o', s₁'⟩ := r'
    cases hagree with
    | ok h => exact hf _ _ h s₁ s₁' hstates₁ hclear

theorem bind {a : Run σ ε α} {b : Run σ' ε' α'} {f : α → Run σ ε β} {g : α' → Run σ' ε' β'}
    (ha : Lockstep M R a b) [hgrows : ∀ x, (f x).Grows]
    (hf : ∀ x y, R x y → Lockstep M Q (f x) (g y)) : Lockstep M Q (a >>= f) (b >>= g) :=
  bind_of_grows ha hgrows hf

theorem mapM {P : β → β' → Prop} {f : β → Run σ ε α} {g : β' → Run σ' ε' α'} {xs : List β}
    {ys : List β'} [∀ x, (f x).Grows] (hf : ∀ x y, P x y → Lockstep M R (f x) (g y))
    (hxs : List.Forall₂ P xs ys) : Lockstep M (List.Forall₂ R) (xs.mapM f) (ys.mapM g) := by
  induction hxs with
  | nil => exact pure .nil
  | @cons x y _ _ hhead _ ih =>
    simp only [List.mapM_cons]
    exact (hf x y hhead).bind fun _ _ hz ↦ ih.bind fun _ _ hzs ↦ pure (.cons hz hzs)

end Lockstep

end Run

end RankedTT
