import RankedTT.Proofs.Fuel

/-!
Answers of computations. `Returns action s x s'` says that the computation, started in the state
`s`, ends with the answer `x` in the state `s'`. Every way of composing computations has a lemma
that says when the whole returns, so that a run is taken apart, or put together, one step at a time.
`Yields` forgets the states: it says of all answers of a computation that they have a property.
-/

set_option autoImplicit false
set_option relaxedAutoImplicit false

namespace RankedTT

namespace Run

variable {σ ε ε' α β : Type}

/-- Started in `s`, the computation ends in `s'` with the answer `x`. -/
def Returns (action : Run σ ε α) (s : σ) (x : α) (s' : σ) : Prop := action.start s = (.ok x, s')

theorem Returns.deterministic {action : Run σ ε α} {s s₁ s₂ : σ} {x₁ x₂ : α}
    (h₁ : action.Returns s x₁ s₁) (h₂ : action.Returns s x₂ s₂) : x₁ = x₂ ∧ s₁ = s₂ := by
  unfold Returns at h₁ h₂
  rw [h₁] at h₂
  injection h₂ with hx hs
  injection hx with hx
  exact ⟨hx, hs⟩

/-- An answer is kept by every refinement. -/
theorem Returns.refine {a b : Run σ ε α} {s s' : σ} {x : α} (h : a.Returns s x s')
    (hab : Refines a b) : b.Returns s x s' := by
  have hs : (a.start s).1 ≠ .error .outOfFuel := by
    rw [h]
    simp
  unfold Returns
  rw [hab.start_eq hs]
  exact h

@[simp]
theorem returns_pure_iff {x y : α} {s s' : σ} :
    (pure x : Run σ ε α).Returns s y s' ↔ x = y ∧ s = s' := by
  change ((.ok x, s) : Outcome ε α × σ) = (.ok y, s') ↔ _
  simp

@[simp]
theorem returns_bind_iff {a : Run σ ε α} {f : α → Run σ ε β} {s s'' : σ} {y : β} :
    (a >>= f).Returns s y s'' ↔ ∃ x s', a.Returns s x s' ∧ (f x).Returns s' y s'' := by
  unfold Returns
  rw [start_bind]
  rcases a.start s with ⟨⟨stop⟩ | ⟨x⟩, s'⟩
  · simp
  · constructor
    · intro h
      exact ⟨x, s', rfl, h⟩
    · rintro ⟨x', s₁, h, hf⟩
      injection h with hx hs
      injection hx with hx
      subst hx hs
      exact hf

@[simp]
theorem not_returns_fail {cause : ε} {s s' : σ} {x : α} :
    ¬ (fail cause : Run σ ε α).Returns s x s' := by
  intro h
  cases h

@[simp]
theorem not_returns_outOfFuel {s s' : σ} {x : α} :
    ¬ (outOfFuel : Run σ ε α).Returns s x s' := by
  intro h
  cases h

@[simp]
theorem returns_modifyGet_iff {f : σ → α × σ} {s s' : σ} {x : α} :
    (modifyGet f : Run σ ε α).Returns s x s' ↔ f s = (x, s') := by
  change ((.ok (f s).1, (f s).2) : Outcome ε α × σ) = (.ok x, s') ↔ _
  rcases f s with ⟨y, s₁⟩
  simp

@[simp]
theorem returns_modify_iff {f : σ → σ} {s s' : σ} {x : PUnit} :
    (modify f : Run σ ε PUnit).Returns s x s' ↔ f s = s' := by
  change ((.ok ⟨⟩, f s) : Outcome ε PUnit × σ) = (.ok x, s') ↔ _
  simp

@[simp]
theorem returns_ofOption_iff {cause : ε} {o : Option α} {s s' : σ} {x : α} :
    (ofOption cause o : Run σ ε α).Returns s x s' ↔ o = some x ∧ s = s' := by
  cases o <;> simp [ofOption]

@[simp]
theorem returns_ofExcept_iff {f : ε' → ε} {e : Except ε' α} {s s' : σ} {x : α} :
    (ofExcept f e : Run σ ε α).Returns s x s' ↔ e = .ok x ∧ s = s' := by
  cases e <;> simp [ofExcept]

@[simp]
theorem returns_ofOutcome_iff {outcome : Outcome ε α} {s s' : σ} {x : α} :
    (ofOutcome outcome : Run σ ε α).Returns s x s' ↔ outcome = .ok x ∧ s = s' := by
  change ((outcome, s) : Outcome ε α × σ) = (.ok x, s') ↔ _
  simp

@[simp]
theorem except_mapError_error (f : ε → ε') (cause : ε) :
    (Except.error cause : Except ε α).mapError f = .error (f cause) := rfl

@[simp]
theorem except_mapError_ok (f : ε → ε') (x : α) :
    (Except.ok x : Except ε α).mapError f = .ok x := rfl

theorem start_mapError (f : ε → ε') (action : Run σ ε α) (s : σ) :
    (mapError f action).start s =
      ((action.start s).1.mapError (Stop.map f), (action.start s).2) := rfl

@[simp]
theorem returns_mapError_iff {f : ε → ε'} {action : Run σ ε α} {s s' : σ} {x : α} :
    (mapError f action).Returns s x s' ↔ action.Returns s x s' := by
  unfold Returns
  rw [start_mapError]
  rcases action.start s with ⟨⟨stop⟩ | ⟨y⟩, s₁⟩ <;> simp

theorem outcome_eq_ok_iff {action : Run σ ε α} {s : σ} {x : α} :
    action.outcome s = .ok x ↔ ∃ s', action.Returns s x s' := by
  unfold outcome Returns
  rcases action.start s with ⟨⟨stop⟩ | ⟨y⟩, s₁⟩ <;> simp

/-- An answer that is known by a test. -/
theorem exists_eq_ok_of_any {o : Outcome ε α} {p : α → Bool}
    (h : o.toOption.any p = true) : ∃ x, o = .ok x ∧ p x = true := by
  cases o with
  | error stop => cases h
  | ok x => exact ⟨x, rfl, h⟩

theorem outcome_bind_eq_ok_iff {outcome : Outcome ε α} {f : α → Outcome ε β} {y : β} :
    (outcome >>= f) = .ok y ↔ ∃ x, outcome = .ok x ∧ f x = .ok y := by
  cases outcome <;> simp [bind, Except.bind]

/-- What a computation does to the members of a list, one after the other. -/
inductive ReturnsEach (f : α → Run σ ε β) : σ → List α → List β → σ → Prop
  | nil (s : σ) : ReturnsEach f s [] [] s
  | cons {s s₁ s₂ : σ} {x : α} {xs : List α} {y : β} {ys : List β}
      (head : (f x).Returns s y s₁) (tail : ReturnsEach f s₁ xs ys s₂) :
      ReturnsEach f s (x :: xs) (y :: ys) s₂

theorem returns_mapM_iff {f : α → Run σ ε β} {s s' : σ} {xs : List α} {ys : List β} :
    (xs.mapM f).Returns s ys s' ↔ ReturnsEach f s xs ys s' := by
  induction xs generalizing s ys with
  | nil =>
    simp only [List.mapM_nil, returns_pure_iff]
    constructor
    · rintro ⟨rfl, rfl⟩
      exact .nil s
    · intro h
      cases h
      exact ⟨rfl, rfl⟩
  | cons x xs ih =>
    simp only [List.mapM_cons, returns_bind_iff, returns_pure_iff]
    constructor
    · rintro ⟨y, s₁, hy, ys, s₂, hys, rfl, rfl⟩
      exact .cons hy (ih.mp hys)
    · intro h
      cases h with
      | cons hy hys => exact ⟨_, _, hy, _, _, ih.mpr hys, rfl, rfl⟩

/-- Started in `s`, the computation fails for the cause. -/
def Fails (action : Run σ ε α) (s : σ) (cause : ε) : Prop :=
  action.outcome s = .error (.error cause)

theorem Returns.not_fails {action : Run σ ε α} {s s' : σ} {x : α} {cause : ε}
    (h : action.Returns s x s') : ¬ action.Fails s cause := by
  unfold Fails outcome
  rw [h]
  nofun

@[simp]
theorem not_fails_pure {x : α} {s : σ} {cause : ε} : ¬ (pure x : Run σ ε α).Fails s cause := by
  intro h
  cases h

@[simp]
theorem not_fails_outOfFuel {s : σ} {cause : ε} : ¬ (outOfFuel : Run σ ε α).Fails s cause := by
  intro h
  cases h

@[simp]
theorem not_fails_modifyGet {f : σ → α × σ} {s : σ} {cause : ε} :
    ¬ (modifyGet f : Run σ ε α).Fails s cause := by
  intro h
  cases h

@[simp]
theorem not_fails_modify {f : σ → σ} {s : σ} {cause : ε} :
    ¬ (modify f : Run σ ε PUnit).Fails s cause := by
  intro h
  cases h

@[simp]
theorem fails_bind_iff {a : Run σ ε α} {f : α → Run σ ε β} {s : σ} {cause : ε} :
    (a >>= f).Fails s cause ↔
      a.Fails s cause ∨ ∃ x s', a.Returns s x s' ∧ (f x).Fails s' cause := by
  unfold Fails Returns outcome
  rw [start_bind]
  rcases a.start s with ⟨⟨stop⟩ | ⟨x⟩, s'⟩
  · simp
  · simp [and_assoc]

@[simp]
theorem fails_fail_iff {cause cause' : ε} {s : σ} :
    (fail cause : Run σ ε α).Fails s cause' ↔ cause = cause' := by
  change (Except.error (.error cause) : Outcome ε α) = .error (.error cause') ↔ _
  simp

@[simp]
theorem fails_ofOption_iff {cause cause' : ε} {o : Option α} {s : σ} :
    (ofOption cause o : Run σ ε α).Fails s cause' ↔ o = none ∧ cause = cause' := by
  cases o <;> simp [ofOption]

@[simp]
theorem fails_ofExcept_iff {f : ε' → ε} {e : Except ε' α} {s : σ} {cause : ε} :
    (ofExcept f e : Run σ ε α).Fails s cause ↔ ∃ cause', e = .error cause' ∧ f cause' = cause := by
  cases e <;> simp [ofExcept]

/-- A failure under another name has that name. -/
@[simp]
theorem fails_mapError_iff {f : ε → ε'} {action : Run σ ε α} {s : σ} {cause : ε'} :
    (mapError f action).Fails s cause ↔ ∃ cause', action.Fails s cause' ∧ f cause' = cause := by
  unfold Fails outcome
  rw [start_mapError]
  rcases action.start s with ⟨⟨⟨cause'⟩ | _⟩ | x, s₁⟩ <;> simp [Stop.map]

/-- Every answer of the computation has the property `P`. -/
def Yields (action : Run σ ε α) (P : α → Prop) : Prop := ∀ s x s', action.Returns s x s' → P x

namespace Yields

variable {P : α → Prop} {Q : β → Prop}

theorem mono {P' : α → Prop} {action : Run σ ε α} (h : action.Yields P) (hP : ∀ x, P x → P' x) :
    action.Yields P' :=
  fun s x s' hx ↦ hP x (h s x s' hx)

theorem and {P' : α → Prop} {action : Run σ ε α} (h : action.Yields P) (h' : action.Yields P') :
    action.Yields fun x ↦ P x ∧ P' x :=
  fun s x s' hx ↦ ⟨h s x s' hx, h' s x s' hx⟩

theorem pure {x : α} (h : P x) : (Pure.pure x : Run σ ε α).Yields P := by
  intro s y s' hy
  obtain ⟨rfl, rfl⟩ := returns_pure_iff.mp hy
  exact h

theorem bind {a : Run σ ε α} {f : α → Run σ ε β} (ha : a.Yields P)
    (hf : ∀ x, P x → (f x).Yields Q) : (a >>= f).Yields Q := by
  intro s y s'' h
  obtain ⟨x, s', hx, hy⟩ := returns_bind_iff.mp h
  exact hf x (ha s x s' hx) s' y s'' hy

theorem fail {cause : ε} : (Run.fail cause : Run σ ε α).Yields P :=
  fun _ _ _ h ↦ absurd h not_returns_fail

/-- Nothing is known of the answer of the first computation. -/
theorem bind_any {a : Run σ ε α} {f : α → Run σ ε β} (hf : ∀ x, (f x).Yields Q) :
    (a >>= f).Yields Q :=
  bind (P := fun _ ↦ True) (fun _ _ _ _ ↦ trivial) fun x _ ↦ hf x

theorem ofOption {cause : ε} {o : Option α} (h : ∀ x, o = some x → P x) :
    (Run.ofOption cause o : Run σ ε α).Yields P :=
  fun _ x _ hx ↦ h x (returns_ofOption_iff.mp hx).1

theorem ofExcept {f : ε' → ε} {e : Except ε' α} (h : ∀ x, e = .ok x → P x) :
    (Run.ofExcept f e : Run σ ε α).Yields P :=
  fun _ x _ hx ↦ h x (returns_ofExcept_iff.mp hx).1

theorem mapError {f : ε → ε'} {action : Run σ ε α} (h : action.Yields P) :
    (Run.mapError f action).Yields P :=
  fun s x s' hx ↦ h s x s' (returns_mapError_iff.mp hx)

end Yields

end Run

end RankedTT
