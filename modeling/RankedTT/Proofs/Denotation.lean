import RankedTT.Proofs.Evaluates
import RankedTT.Proofs.Faults
import RankedTT.Proofs.Meaning

/-!
Evaluation follows reduction. A value denotes a term: a closure denotes the lambda that it was made
from, with what the captured values denote put in, and the absent value denotes any type. Evaluating
a term gives a value that denotes one of its reducts, so an evaluation that fails, other than in the
host, shows that the term goes wrong.
-/

set_option autoImplicit false
set_option relaxedAutoImplicit false

namespace RankedTT

open Nameless Run

mutual

inductive Value.Denotes : Value → Nameless → Prop
  | absent {t : Nameless} (h : t.form? = some .type) : Value.Denotes .absent t
  | int (n : Int) {t : Nameless} (h : t.form? = some .datum) : Value.Denotes (.int n) t
  | str (s : String) {t : Nameless} (h : t.form? = some .datum) : Value.Denotes (.str s) t
  | operation (op : BinaryOp) :
      Value.Denotes (.host (.binary op)) (.const (.host (.binary op)))
  | applied (op : BinaryOp) (lhs : Value) (stamp n : Nat) (type operand : Nameless) :
      Value.Denotes (.host (.applied op lhs stamp))
        (.app n type (.const (.host (.binary op))) operand)
  | record {values : List Value} {members : Nameless}
      (h : Value.DenotesMembers values members) : Value.Denotes (.record values) (.record members)
  | closure (ρ : Env Value) (param : String) (stamp : Stamp) (body : Core) {τ : Ref → Nameless}
      (hρ : ∀ x, ¬ Faulty (τ (.free x)) → Env.DenotesAt ρ x (τ (.free x))) :
      Value.Denotes (.closure ρ param stamp body)
        (.lam (body.meaning (under τ param)))

inductive Value.DenotesMembers : List Value → Nameless → Prop
  | nil : Value.DenotesMembers [] .nil
  | cons {v : Value} {vs : List Value} {head tail : Nameless} (hhead : Value.Denotes v head)
      (htail : Value.DenotesMembers vs tail) : Value.DenotesMembers (v :: vs) (.cons head tail)

/-- The name has a value that denotes the term. -/
inductive Env.DenotesAt : Env Value → String → Nameless → Prop
  | mk {ρ : Env Value} {x : String} {v : Value} {t : Nameless} (hget : Env.get? ρ x = some v)
      (hv : Value.Denotes v t) : Env.DenotesAt ρ x t

end

/-- Every name has a value that denotes what the name stands for, unless that is faulty. -/
def Env.Denotes (ρ : Env Value) (τ : Ref → Nameless) : Prop :=
  ∀ x, ¬ Faulty (τ (.free x)) → Env.DenotesAt ρ x (τ (.free x))

theorem Env.Denotes.push {ρ : Env Value} {τ : Ref → Nameless} (h : Env.Denotes ρ τ)
    (param : String) {v : Value} {u : Nameless} (hv : v.Denotes u) :
    Env.Denotes (Env.push ρ param v) (rebind τ param u) := by
  intro x hx
  by_cases hparam : x = param
  · subst hparam
    rw [rebind_self]
    exact .mk (Env.get?_push_self ρ x v) hv
  · rw [rebind_of_ne _ _ _ hparam] at hx ⊢
    obtain ⟨hget, hw⟩ := h x hx
    exact .mk ((Env.get?_push_of_ne ρ v hparam).trans hget) hw

/-- What a closure denotes, applied to a term. -/
theorem Core.reduces_call (τ : Ref → Nameless) (param : String) (body : Core) (rank : Nat)
    (type u : Nameless) :
    Reduces (.app rank type (.lam (body.meaning (under τ param))) u)
      (body.meaning (rebind τ param u)) := by
  rw [← Core.inst_meaning]
  exact .single (.beta rank type (.refl _) (.refl u))

theorem Value.DenotesMembers.nth {values : List Value} {members : Nameless}
    (h : Value.DenotesMembers values members) {i : Nat} {v : Value} (hv : values[i]? = some v) :
    ∃ m, members.nth i = some m ∧ v.Denotes m := by
  induction i generalizing values members with
  | zero =>
    cases h with
    | nil => simp at hv
    | cons hhead _ =>
      obtain rfl : _ = v := by simpa using hv
      exact ⟨_, rfl, hhead⟩
  | succ i ih =>
    cases h with
    | nil => simp at hv
    | cons _ htail => exact ih htail (by simpa using hv)

theorem Value.DenotesMembers.endsBefore {values : List Value} {members : Nameless}
    (h : Value.DenotesMembers values members) {i : Nat} (hi : values[i]? = none) :
    EndsBefore members i := by
  induction i generalizing values members with
  | zero =>
    cases h with
    | nil => exact .nil 0
    | cons => simp at hi
  | succ i ih =>
    cases h with
    | nil => exact .nil _
    | cons _ htail => exact .cons _ (ih htail (by simpa using hi))

/-- A known constant denotes itself. -/
theorem Value.denotes_const {v : Value} (h : ¬ Faulty (.const v.key)) :
    v.Denotes (.const v.key) := by
  cases v with
  | int n => exact .int n rfl
  | str s => exact .str s rfl
  | host f =>
    cases f with
    | binary op => exact .operation op
    | _ => exact absurd (.unknown rfl) h
  | _ => exact absurd (.unknown rfl) h

/-- An operation of the host that ends gives a datum. -/
theorem BinaryOp.denotes_call {op : BinaryOp} {lhs rhs result : Value}
    (h : op.call lhs rhs = .ok result) {t : Nameless} (ht : t.form? = some .datum) :
    result.Denotes t := by
  obtain ⟨_, _, _, -, -, -, -, rfl⟩ | ⟨-, _, _, -, -, rfl⟩ := BinaryOp.call_eq_ok_iff.mp h
  · exact .int _ ht
  · exact .str _ ht

mutual

/-- The value of a term denotes a reduct of the term. -/
theorem Core.Evaluates.denotes {τ : Ref → Nameless} {ρ : Env Value} {t : Core} {n : Nat}
    {v : Value} : t.Evaluates ρ n v → Env.Denotes ρ τ → ¬ GoesWrong (t.meaning τ) →
      ∃ u, Reduces (t.meaning τ) u ∧ v.Denotes u
  | .univ, _, _ | .quant, _, _ | .signature, _, _ => ⟨_, .refl, .absent rfl⟩
  | .lam, hρ, _ => by
    rw [Core.meaning_lam]
    exact ⟨_, .refl, .closure _ _ _ _ hρ⟩
  | .record hmembers, hρ, h => by
    obtain ⟨us, hus, hdenotes⟩ := hmembers.denotes hρ fun hwrong ↦ h hwrong.record
    exact ⟨_, hus.record, .record hdenotes⟩
  | @Core.Evaluates.app _ rank type _ _ _ _ _ _ _ _ hoperator hoperand hresult, hρ, h => by
    obtain ⟨u, hu, hf⟩ := hoperator.denotes hρ fun hwrong ↦ h (hwrong.operator _ _ _)
    obtain ⟨w, hw, ha⟩ := hoperand.denotes hρ fun hwrong ↦ h (hwrong.operand _ _ _)
    have hsteps : Reduces (.app rank (type.meaning τ) _ _) _ := Reduces.app rank .refl hu hw
    obtain ⟨s, hs, hr⟩ := hresult.denotes hf ha fun hwrong ↦ h (.of_reduces hsteps hwrong)
    exact ⟨s, hsteps.trans hs, hr⟩
  | .proj hoperator hvalue, hρ, h => by
    obtain ⟨u, hu, hrecord⟩ := hoperator.denotes hρ fun hwrong ↦ h (hwrong.projected _ _ _)
    cases hrecord with
    | record hmembers =>
      obtain ⟨m, hm, hv⟩ := hmembers.nth hvalue
      exact ⟨m, (Reduces.proj _ _ .refl hu).tail (.select _ _ (.refl _) hm), hv⟩
  | .var hvalue, hρ, h => by
    obtain ⟨hget, hv⟩ := hρ _ fun hfault ↦ h ⟨_, .refl, hfault⟩
    rw [hvalue] at hget
    cases hget
    exact ⟨_, .refl, hv⟩
  | .const, _, h => ⟨_, .refl, Value.denotes_const fun hfault ↦ h ⟨_, .refl, hfault⟩⟩

theorem Core.EvaluatesMembers.denotes {τ : Ref → Nameless} {ρ : Env Value} {ts : List Core}
    {n : Nat} {vs : List Value} : Core.EvaluatesMembers ρ ts n vs → Env.Denotes ρ τ →
      ¬ GoesWrong (Core.meaningMembers τ ts) →
      ∃ us, Reduces (Core.meaningMembers τ ts) us ∧ Value.DenotesMembers vs us
  | .nil, _, _ => ⟨_, .refl, .nil⟩
  | .cons hhead htail, hρ, h => by
    obtain ⟨u, hu, hv⟩ := hhead.denotes hρ fun hwrong ↦ h (hwrong.head _)
    obtain ⟨us, hus, hvs⟩ := htail.denotes hρ fun hwrong ↦ h (hwrong.tail _)
    exact ⟨_, hu.cons hus, .cons hv hvs⟩

theorem Value.Applies.denotes {f a r : Value} {n rank : Nat} {type u w : Nameless} :
    f.Applies a n r → f.Denotes u → a.Denotes w → ¬ GoesWrong (.app rank type u w) →
      ∃ s, Reduces (.app rank type u w) s ∧ r.Denotes s
  | @Value.Applies.closure _ param _ body _ _ _ hbody, hf, ha, h => by
    cases hf with
    | @closure _ _ _ _ τ hρ =>
      have hstep := Core.reduces_call τ param body rank type w
      obtain ⟨s, hs, hr⟩ := hbody.denotes (Env.Denotes.push hρ _ ha)
        fun hwrong ↦ h (.of_reduces hstep hwrong)
      exact ⟨s, hstep.trans hs, hr⟩
  | .host hcall, hf, ha, h => by
    cases hf with
    | operation op =>
      simp only [HostFn.call, returns_bind_iff, returns_pure_iff] at hcall
      obtain ⟨stamp, _, -, rfl, -⟩ := hcall
      exact ⟨_, .refl, .applied op a stamp rank type w⟩
    | applied op lhs stamp m type' operand =>
      simp only [HostFn.call, returns_ofExcept_iff] at hcall
      exact ⟨_, .refl, BinaryOp.denotes_call hcall.1 rfl⟩

end

/-! ### Failures -/

/-- A value of another form than that of functions. -/
theorem Value.Denotes.form_of_not_function {v : Value} {t : Nameless} (h : v.Denotes t)
    (hclosure : ∀ ρ param stamp body, v ≠ .closure ρ param stamp body)
    (hhost : ∀ f, v ≠ .host f) : ∃ k, t.form? = some k ∧ k ≠ .function := by
  cases h with
  | absent h => exact ⟨_, h, by decide⟩
  | int _ h => exact ⟨_, h, by decide⟩
  | str _ h => exact ⟨_, h, by decide⟩
  | operation => exact absurd rfl (hhost _)
  | applied => exact absurd rfl (hhost _)
  | record => exact ⟨_, rfl, by decide⟩
  | closure => exact absurd rfl (hclosure _ _ _ _)

theorem Value.Denotes.form_of_not_record {v : Value} {t : Nameless} (h : v.Denotes t)
    (hrecord : ∀ values, v ≠ .record values) : ∃ k, t.form? = some k ∧ k ≠ .record := by
  cases h with
  | absent h => exact ⟨_, h, by decide⟩
  | int _ h => exact ⟨_, h, by decide⟩
  | str _ h => exact ⟨_, h, by decide⟩
  | operation => exact ⟨_, rfl, by decide⟩
  | applied => exact ⟨_, rfl, by decide⟩
  | record => exact absurd rfl (hrecord _)
  | closure => exact ⟨_, rfl, by decide⟩

theorem Core.mapM_fails_host {eval : Env Value → Core → Eval Value} {τ : Ref → Nameless}
    {ρ : Env Value} (h : ∀ {t s cause}, (eval ρ t).Fails s cause → ¬ GoesWrong (t.meaning τ) →
      ∃ e, cause = .host e)
    {members : List Core} {s : Journal} {cause : RuntimeError}
    (hfails : (members.mapM (eval ρ)).Fails s cause)
    (hwrong : ¬ GoesWrong (Core.meaningMembers τ members)) :
    ∃ e, cause = .host e := by
  induction members generalizing s with
  | nil => simp at hfails
  | cons m ms ih =>
    simp only [List.mapM_cons, fails_bind_iff, not_fails_pure, and_false, exists_false,
      or_false] at hfails
    rcases hfails with hfails | ⟨_, _, -, hfails⟩
    · exact h hfails fun hm ↦ hwrong (hm.head _)
    · exact ih hfails fun hms ↦ hwrong (hms.tail _)

/-- An evaluation that fails, other than in the host, is that of a term that goes wrong. -/
theorem Core.eval_fails_host {fuel : Nat} {ρ : Env Value} {τ : Ref → Nameless} {t : Core}
    {s : Journal} {cause : RuntimeError} (h : (t.eval fuel ρ).Fails s cause)
    (hρ : Env.Denotes ρ τ) (ht : ¬ GoesWrong (t.meaning τ)) : ∃ e, cause = .host e := by
  induction fuel generalizing ρ τ t s cause with
  | zero => simp [Core.eval] at h
  | succ fuel ih =>
    simp only [Core.eval_succ, fails_bind_iff, not_fails_modify, not_fails_pure, and_false,
      exists_false, or_false] at h
    cases t with
    | univ | quant | signature | lam | const => simp [Core.evalWith] at h
    | var x =>
      simp only [Core.evalWith, fails_ofExcept_iff, Env.lookup] at h
      obtain ⟨hget, -⟩ := hρ x fun hfault ↦ ht ⟨_, .refl, hfault⟩
      simp [hget] at h
    | record members =>
      simp only [Core.evalWith, fails_bind_iff, not_fails_pure, and_false, exists_false,
        or_false] at h
      exact Core.mapM_fails_host (fun hfails hwrong ↦ ih hfails hρ hwrong) h
        fun hwrong ↦ ht hwrong.record
    | app rank type operator operand =>
      simp only [Core.evalWith, fails_bind_iff] at h
      rcases h with h | ⟨f, s₁, hf, h | ⟨a, s₂, ha, h⟩⟩
      · exact ih h hρ fun hwrong ↦ ht (hwrong.operator _ _ _)
      · exact ih h hρ fun hwrong ↦ ht (hwrong.operand _ _ _)
      · obtain ⟨_, hf⟩ := Core.evaluates_of_returns hf
        obtain ⟨_, ha⟩ := Core.evaluates_of_returns ha
        obtain ⟨u, hu, hf⟩ := hf.denotes hρ fun hwrong ↦ ht (hwrong.operator _ _ _)
        obtain ⟨w, hw, ha⟩ := ha.denotes hρ fun hwrong ↦ ht (hwrong.operand _ _ _)
        have hsteps : Reduces (.app rank (type.meaning τ) _ _) _ := Reduces.app rank .refl hu hw
        unfold Value.applyWith at h
        split at h
        · cases hf with
          | closure _ _ _ _ hρ' =>
            refine ih h (Env.Denotes.push hρ' _ ha) fun hwrong ↦ ht ?_
            exact .of_reduces (hsteps.trans (Core.reduces_call _ _ _ _ _ w)) hwrong
        · obtain ⟨e, -, he⟩ := fails_mapError_iff.mp h
          exact ⟨e, he.symm⟩
        · rename_i hclosure hhost
          obtain ⟨k, hk, hne⟩ := hf.form_of_not_function hclosure hhost
          exact absurd ⟨_, hsteps, .call _ _ _ hk hne⟩ ht
    | proj rank type operator index =>
      simp only [Core.evalWith, fails_bind_iff] at h
      rcases h with h | ⟨v, s₁, hv, h⟩
      · exact ih h hρ fun hwrong ↦ ht (hwrong.projected _ _ _)
      · obtain ⟨_, hv⟩ := Core.evaluates_of_returns hv
        obtain ⟨u, hu, hv⟩ := hv.denotes hρ fun hwrong ↦ ht (hwrong.projected _ _ _)
        have hsteps : Reduces (.proj rank (type.meaning τ) _ index) _ :=
          Reduces.proj rank index .refl hu
        unfold Value.project at h
        split at h
        · cases hv with
          | record hmembers =>
            obtain ⟨hnone, -⟩ := fails_ofOption_iff.mp h
            exact absurd ⟨_, hsteps, .range _ _ (hmembers.endsBefore hnone)⟩ ht
        · rename_i hrecord
          obtain ⟨k, hk, hne⟩ := hv.form_of_not_record hrecord
          exact absurd ⟨_, hsteps, .select _ _ _ hk hne⟩ ht

end RankedTT
