import RankedTT.Proofs.Returns

/-!
Evaluation seen from both ends. `Core.Evaluates` is evaluation as a relation, without fuel and
journal, that counts the function calls; every answer of the evaluator is derived by its rules.
`Core.Converges` is the other direction: whatever the journal holds, with enough fuel the evaluator
ends with a value that has a property. Applying an operation of the host makes a value with a new
stamp, so the two do not meet in the value, only in what can be said about it.
-/

set_option autoImplicit false
set_option relaxedAutoImplicit false

namespace RankedTT

open Run

mutual

/-- `t.Evaluates ρ n v`: in the environment `ρ`, the term `t` has the value `v`, after `n` calls. -/
inductive Core.Evaluates : Env Value → Core → Nat → Value → Prop
  | univ {ρ : Env Value} {rank : Nat} : Core.Evaluates ρ (.univ rank) 0 .absent
  | quant {ρ : Env Value} {polarity : Polarity} {rank : Nat} {domain codomain : Core}
      {name : String} : Core.Evaluates ρ (.quant polarity rank domain name codomain) 0 .absent
  | signature {ρ : Env Value} {members : Telescope} :
      Core.Evaluates ρ (.signature members) 0 .absent
  | lam {ρ : Env Value} {param : String} {stamp : Stamp} {body : Core} :
      Core.Evaluates ρ (.lam param stamp body) 0 (.closure ρ param stamp body)
  | record {ρ : Env Value} {members : List Core} {n : Nat} {values : List Value}
      (hmembers : Core.EvaluatesMembers ρ members n values) :
      Core.Evaluates ρ (.record members) n (.record values)
  | app {ρ : Env Value} {rank : Nat} {type operator operand : Core} {n₁ n₂ n₃ : Nat}
      {function argument result : Value} (hoperator : Core.Evaluates ρ operator n₁ function)
      (hoperand : Core.Evaluates ρ operand n₂ argument)
      (hresult : Value.Applies function argument n₃ result) :
      Core.Evaluates ρ (.app rank type operator operand) (n₁ + n₂ + n₃) result
  | proj {ρ : Env Value} {rank : Nat} {type operator : Core} {index n : Nat}
      {values : List Value} {value : Value}
      (hoperator : Core.Evaluates ρ operator n (.record values))
      (hvalue : values[index]? = some value) :
      Core.Evaluates ρ (.proj rank type operator index) n value
  | var {ρ : Env Value} {x : String} {value : Value} (hvalue : Env.get? ρ x = some value) :
      Core.Evaluates ρ (.var x) 0 value
  | const {ρ : Env Value} {value : Value} : Core.Evaluates ρ (.const value) 0 value

inductive Core.EvaluatesMembers : Env Value → List Core → Nat → List Value → Prop
  | nil {ρ : Env Value} : Core.EvaluatesMembers ρ [] 0 []
  | cons {ρ : Env Value} {m : Core} {ms : List Core} {n₁ n₂ : Nat} {value : Value}
      {values : List Value} (hhead : Core.Evaluates ρ m n₁ value)
      (htail : Core.EvaluatesMembers ρ ms n₂ values) :
      Core.EvaluatesMembers ρ (m :: ms) (n₁ + n₂) (value :: values)

/-- `f.Applies a n r`: the function value `f` applied to `a` gives `r`, after `n` calls, this one
included. -/
inductive Value.Applies : Value → Value → Nat → Value → Prop
  | closure {ρ : Env Value} {param : String} {stamp : Stamp} {body : Core} {argument result : Value}
      {n : Nat} (hbody : Core.Evaluates (Env.push ρ param argument) body n result) :
      Value.Applies (.closure ρ param stamp body) argument (n + 1) result
  | host {function : HostFn} {argument result : Value} {s s' : Journal}
      (hcall : (function.call argument).Returns s result s') :
      Value.Applies (.host function) argument 1 result

end

/-! ### From the evaluator to the rules -/

theorem Core.evaluatesMembers_of_returns {eval : Env Value → Core → Eval Value}
    (h : ∀ {ρ t s v s'}, (eval ρ t).Returns s v s' → ∃ n, t.Evaluates ρ n v)
    {ρ : Env Value} {members : List Core} {s s' : Journal} {values : List Value}
    (hreturns : ReturnsEach (eval ρ) s members values s') :
    ∃ n, Core.EvaluatesMembers ρ members n values := by
  induction hreturns with
  | nil => exact ⟨0, .nil⟩
  | cons hhead _ ih =>
    obtain ⟨n₁, hn₁⟩ := h hhead
    obtain ⟨n₂, hn₂⟩ := ih
    exact ⟨n₁ + n₂, .cons hn₁ hn₂⟩

theorem Value.applies_of_returns {eval : Env Value → Core → Eval Value}
    (h : ∀ {ρ t s v s'}, (eval ρ t).Returns s v s' → ∃ n, t.Evaluates ρ n v)
    {function argument result : Value} {s s' : Journal}
    (hreturns : (function.applyWith eval argument).Returns s result s') :
    ∃ n, function.Applies argument n result := by
  unfold Value.applyWith at hreturns
  split at hreturns
  · obtain ⟨n, hn⟩ := h hreturns
    exact ⟨n + 1, .closure hn⟩
  · exact ⟨1, .host (returns_mapError_iff.mp hreturns)⟩
  · simp at hreturns

/-- Every answer of the evaluator is derived by the rules. -/
theorem Core.evaluates_of_returns {fuel : Nat} {ρ : Env Value} {t : Core} {s s' : Journal}
    {v : Value} (h : (t.eval fuel ρ).Returns s v s') : ∃ n, t.Evaluates ρ n v := by
  induction fuel generalizing ρ t s v s' with
  | zero => simp [Core.eval] at h
  | succ fuel ih =>
    simp only [Core.eval_succ, returns_bind_iff, returns_modify_iff, returns_pure_iff] at h
    obtain ⟨v, s₁, h, _, s₂, -, rfl, -⟩ := h
    cases t with
    | univ rank =>
      obtain ⟨rfl, -⟩ := returns_pure_iff.mp h
      exact ⟨0, .univ⟩
    | quant polarity rank domain name codomain =>
      obtain ⟨rfl, -⟩ := returns_pure_iff.mp h
      exact ⟨0, .quant⟩
    | signature members =>
      obtain ⟨rfl, -⟩ := returns_pure_iff.mp h
      exact ⟨0, .signature⟩
    | lam param stamp body =>
      obtain ⟨rfl, -⟩ := returns_pure_iff.mp h
      exact ⟨0, .lam⟩
    | record members =>
      simp only [Core.evalWith, returns_bind_iff, returns_pure_iff, returns_mapM_iff] at h
      obtain ⟨values, s₂, hvalues, rfl, -⟩ := h
      obtain ⟨n, hn⟩ := Core.evaluatesMembers_of_returns ih hvalues
      exact ⟨n, .record hn⟩
    | app rank type operator operand =>
      simp only [Core.evalWith, returns_bind_iff] at h
      obtain ⟨function, s₂, hoperator, argument, s₃, hoperand, hresult⟩ := h
      obtain ⟨n₁, hn₁⟩ := ih hoperator
      obtain ⟨n₂, hn₂⟩ := ih hoperand
      obtain ⟨n₃, hn₃⟩ := Value.applies_of_returns ih hresult
      exact ⟨n₁ + n₂ + n₃, .app hn₁ hn₂ hn₃⟩
    | proj rank type operator index =>
      simp only [Core.evalWith, returns_bind_iff] at h
      obtain ⟨record, s₂, hoperator, h⟩ := h
      obtain ⟨n, hn⟩ := ih hoperator
      unfold Value.project at h
      split at h
      · exact ⟨n, .proj hn (returns_ofOption_iff.mp h).1⟩
      · simp at h
    | var x =>
      simp only [Core.evalWith, returns_ofExcept_iff, Env.lookup] at h
      obtain ⟨h, -⟩ := h
      split at h
      · rename_i hvalue
        injection h with h
        exact ⟨0, .var (h ▸ hvalue)⟩
      · simp at h
    | const value =>
      obtain ⟨rfl, -⟩ := returns_pure_iff.mp h
      exact ⟨0, .const⟩

/-! ### Computations that end with enough fuel -/

namespace Run

variable {σ ε α β : Type}

/-- More fuel refines the computation. -/
def Growing (F : Nat → Run σ ε α) : Prop := ∀ ⦃m n : Nat⦄, m ≤ n → Refines (F m) (F n)

/-- From every state, with enough fuel the computation answers, and the answer has the property. -/
def Settles (F : Nat → Run σ ε α) (P : α → Prop) : Prop :=
  ∀ s, ∃ fuel x s', (F fuel).Returns s x s' ∧ P x

namespace Settles

variable {F : Nat → Run σ ε α} {P Q : α → Prop}

theorem mono (h : Settles F P) (hPQ : ∀ x, P x → Q x) : Settles F Q := by
  intro s
  obtain ⟨fuel, x, s', hx, hP⟩ := h s
  exact ⟨fuel, x, s', hx, hPQ x hP⟩

theorem pure {x : α} (h : P x) : Settles (fun _ ↦ (Pure.pure x : Run σ ε α)) P :=
  fun s ↦ ⟨0, x, s, returns_pure_iff.mpr ⟨rfl, rfl⟩, h⟩

theorem bind {G : α → Nat → Run σ ε β} {R : β → Prop} (hF : Growing F) (hG : ∀ x, Growing (G x))
    (h : Settles F P) (hrest : ∀ x, P x → Settles (G x) R) :
    Settles (fun fuel ↦ F fuel >>= fun x ↦ G x fuel) R := by
  intro s
  obtain ⟨m, x, s₁, hx, hP⟩ := h s
  obtain ⟨n, y, s₂, hy, hR⟩ := hrest x hP s₁
  refine ⟨max m n, y, s₂, returns_bind_iff.mpr ⟨x, s₁, ?_, ?_⟩, hR⟩
  · exact hx.refine (hF (Nat.le_max_left m n))
  · exact hy.refine (hG x (Nat.le_max_right m n))

/-- The answer from a state is determined, so it has all properties at once. -/
theorem for_all {ι : Type} [Inhabited ι] {P : ι → α → Prop} (hF : Growing F)
    (h : ∀ i, Settles F (P i)) : Settles F fun x ↦ ∀ i, P i x := by
  intro s
  obtain ⟨m, x, s', hx, -⟩ := h default s
  refine ⟨m, x, s', hx, fun i ↦ ?_⟩
  obtain ⟨n, y, s'', hy, hP⟩ := h i s
  have hx' := hx.refine (hF (Nat.le_max_left m n))
  have hy' := hy.refine (hF (Nat.le_max_right m n))
  rw [(hx'.deterministic hy').1]
  exact hP

end Settles

end Run

theorem Core.eval_growing (ρ : Env Value) (t : Core) : Growing fun fuel ↦ t.eval fuel ρ :=
  fun _ _ h ↦ t.eval_refines h ρ

theorem Value.apply_growing (function argument : Value) :
    Growing fun fuel ↦ function.apply fuel argument :=
  fun _ _ h ↦ function.applyWith_refines (fun ρ t ↦ t.eval_refines h ρ) argument

/-- With enough fuel the term has a value with the property, whatever the journal holds. -/
def Core.Converges (ρ : Env Value) (t : Core) (P : Value → Prop) : Prop :=
  Settles (fun fuel ↦ t.eval fuel ρ) P

def Value.ConvergesOn (function argument : Value) (P : Value → Prop) : Prop :=
  Settles (fun fuel ↦ function.apply fuel argument) P

def Core.ConvergesMembers (ρ : Env Value) (members : List Core) (P : List Value → Prop) : Prop :=
  Settles (fun fuel ↦ members.mapM (Core.eval fuel ρ)) P

theorem Core.mapM_eval_growing (ρ : Env Value) (members : List Core) :
    Growing fun fuel ↦ members.mapM (Core.eval fuel ρ) :=
  fun _ _ h ↦ Refines.mapM (fun t ↦ t.eval_refines h ρ) members

/-- A value that the evaluator finds is one that the rules derive. -/
theorem Core.Converges.exists_evaluates {ρ : Env Value} {t : Core} {P : Value → Prop}
    (h : t.Converges ρ P) : ∃ n v, t.Evaluates ρ n v ∧ P v := by
  obtain ⟨fuel, v, s', hv, hP⟩ := h .empty
  obtain ⟨n, hn⟩ := Core.evaluates_of_returns hv
  exact ⟨n, v, hn, hP⟩

theorem Value.ConvergesOn.exists_applies {function argument : Value} {P : Value → Prop}
    (h : function.ConvergesOn argument P) : ∃ n r, function.Applies argument n r ∧ P r := by
  obtain ⟨fuel, r, s', hr, hP⟩ := h .empty
  obtain ⟨n, hn⟩ := Value.applies_of_returns Core.evaluates_of_returns hr
  exact ⟨n, r, hn, hP⟩

namespace Core

variable {ρ : Env Value} {P : Value → Prop}

/-- What the parts of a term settle to decides what the term settles to. -/
theorem converges_of_evalWith {t : Core}
    (h : Settles (fun fuel ↦ t.evalWith (Core.eval fuel) ρ) P) : t.Converges ρ P := by
  intro s
  obtain ⟨fuel, v, s', hv, hP⟩ := h s
  refine ⟨fuel + 1, v, s'.record (.evaluated t v), ?_, hP⟩
  simp only [Core.eval_succ, returns_bind_iff, returns_modify_iff, returns_pure_iff]
  exact ⟨v, s', hv, ⟨⟩, _, rfl, rfl, rfl⟩

theorem converges_univ {rank : Nat} (h : P .absent) : (Core.univ rank).Converges ρ P :=
  converges_of_evalWith (.pure h)

theorem converges_quant {polarity : Polarity} {rank : Nat} {domain codomain : Core} {name : String}
    (h : P .absent) : (Core.quant polarity rank domain name codomain).Converges ρ P :=
  converges_of_evalWith (.pure h)

theorem converges_signature {members : Telescope} (h : P .absent) :
    (Core.signature members).Converges ρ P :=
  converges_of_evalWith (.pure h)

theorem converges_lam {param : String} {stamp : Stamp} {body : Core}
    (h : P (.closure ρ param stamp body)) : (Core.lam param stamp body).Converges ρ P :=
  converges_of_evalWith (.pure h)

theorem converges_const {value : Value} (h : P value) : (Core.const value).Converges ρ P :=
  converges_of_evalWith (.pure h)

theorem converges_var {x : String} {value : Value} (hx : Env.get? ρ x = some value)
    (h : P value) : (Core.var x).Converges ρ P := by
  refine converges_of_evalWith fun s ↦ ⟨0, value, s, ?_, h⟩
  simp only [Core.evalWith, Env.lookup, hx, returns_ofExcept_iff, and_self]

theorem converges_app {rank : Nat} {type operator operand : Core} {F A : Value → Prop}
    (hoperator : operator.Converges ρ F) (hoperand : operand.Converges ρ A)
    (happly : ∀ f a, F f → A a → f.ConvergesOn a P) :
    (Core.app rank type operator operand).Converges ρ P := by
  refine converges_of_evalWith (.bind (operator.eval_growing ρ) ?_ hoperator fun f hf ↦ ?_)
  · intro f m n h
    exact (operand.eval_growing ρ h).bind fun a ↦ f.apply_growing a h
  · refine .bind (operand.eval_growing ρ) ?_ hoperand fun a ha ↦ happly f a hf ha
    intro a
    exact f.apply_growing a

theorem converges_proj {rank index : Nat} {type operator : Core}
    (h : operator.Converges ρ fun v ↦
      ∃ values value, v = .record values ∧ values[index]? = some value ∧ P value) :
    (Core.proj rank type operator index).Converges ρ P := by
  refine converges_of_evalWith (.bind (operator.eval_growing ρ) (fun _ _ _ _ ↦ .refl _) h ?_)
  rintro _ ⟨values, value, rfl, hvalue, hP⟩ s
  exact ⟨0, value, s, returns_ofOption_iff.mpr ⟨hvalue, rfl⟩, hP⟩

theorem converges_record {members : List Core}
    (h : ConvergesMembers ρ members fun values ↦ P (.record values)) :
    (Core.record members).Converges ρ P :=
  converges_of_evalWith
    (.bind (Core.mapM_eval_growing ρ members) (fun _ _ _ _ ↦ .refl _) h fun _ hP ↦ .pure hP)

theorem convergesMembers_nil {P : List Value → Prop} (h : P []) : ConvergesMembers ρ [] P :=
  Settles.pure h

theorem convergesMembers_cons {m : Core} {ms : List Core} {P Q : List Value → Prop}
    {V : Value → Prop} (hhead : m.Converges ρ V) (htail : ConvergesMembers ρ ms Q)
    (h : ∀ v vs, V v → Q vs → P (v :: vs)) : ConvergesMembers ρ (m :: ms) P := by
  unfold ConvergesMembers
  simp only [List.mapM_cons]
  refine .bind (m.eval_growing ρ) ?_ hhead fun v hv ↦ ?_
  · intro v k n hkn
    exact (Core.mapM_eval_growing ρ ms hkn).bind fun _ ↦ .refl _
  · exact .bind (Core.mapM_eval_growing ρ ms) (fun _ _ _ _ ↦ .refl _) htail
      fun vs hvs ↦ .pure (h v vs hv hvs)

end Core

/-- A closure converges as its body does. -/
theorem Value.convergesOn_closure {ρ : Env Value} {param : String} {stamp : Stamp} {body : Core}
    {argument : Value} {P : Value → Prop} (h : body.Converges (Env.push ρ param argument) P) :
    (Value.closure ρ param stamp body).ConvergesOn argument P := h

end RankedTT
