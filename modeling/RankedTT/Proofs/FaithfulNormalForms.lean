import RankedTT.Proofs.Reading

/-!
What normalization keeps of evaluation. The erasure of a term is what evaluation looks at: types are
left out, and so are the names of record members, and constants are unfolded. Normalizing a term may
rename a binder in such a way that the type of the term changes its meaning and its values do not.
A normalization is faithful if none of the calls for what is evaluated gives a binder the name of
something else; then the erasure of a term reduces to that of its normal form, whatever constants
the equality of values mixes up.
-/

set_option autoImplicit false
set_option relaxedAutoImplicit false

namespace RankedTT

open Nameless Relation

/-! ### Erasure and substitution -/

/-- Below a binder whose name is not free in the term. -/
theorem Core.erasure_under (τ : Ref → Nameless) {t : Core} {name : String}
    (h : name ∉ t.freeNames) : t.erasure (under τ name) = (t.erasure τ).shift := by
  have hcongr : t.erasure (under τ name) = t.erasure fun v ↦ (τ v).shift := by
    refine t.erasure_congr fun x hx ↦ under_of_ne τ name ?_
    rintro rfl
    exact h hx
  rw [hcongr, shift, rename_eq_subst, t.erasure_subst]
  congr 1
  funext v
  exact rename_eq_subst _ _

/-- Below a binder, what stands for the other names is the same, shifted. -/
theorem Substitution.erasure_image_enter {σ : Substitution} {name : String} {body : Core}
    {τ υ : Ref → Nameless} (hσ : AvoidsAnonymous σ)
    (h : ∀ x ∈ body.freeNames.filter (· != name), τ (.free x) = (image σ x).erasure υ) :
    ∀ x ∈ body.freeNames, under τ name (.free x) =
      (image (enter σ name body).2 x).erasure (under υ (enter σ name body).1) := by
  intro x hx
  rw [image_enter]
  by_cases hname : x = name
  · subst hname
    rw [if_pos rfl, under_self]
    exact (under_self υ _).symm
  · have hfresh : (Substitution.enter σ name body).1 ∉ (image σ x).freeNames :=
      enter_not_mem_image (fun hanonymous ↦ hσ x (hanonymous ▸ hname)) hx hname
    rw [if_neg hname, under_of_ne τ name hname, Core.erasure_under υ hfresh,
      h x (by simpa [hname] using hx)]

mutual

/-- The erasure of a term with other terms for its names. Labels capture nothing that is
evaluated. -/
theorem Core.erasure_substituted {τ υ : Ref → Nameless} : (t : Core) → (σ : Substitution) →
    σ.AvoidsAnonymous → (∀ x ∈ t.freeNames, τ (.free x) = (σ.image x).erasure υ) →
      (t.subst σ).erasure υ = t.erasure τ
  | t, [], _, h => by
    rw [Core.subst_nil]
    exact t.erasure_congr fun x hx ↦ (h x hx).symm
  | .univ _, _ :: _, _, _ | .const _, _ :: _, _, _ | .quant .., _ :: _, _, _
  | .signature _, _ :: _, _, _ => rfl
  | .lam param _ body, entry :: σ, hσ, h =>
    congrArg Nameless.lam (body.erasure_substituted _ (hσ.enter param body)
      (Substitution.erasure_image_enter hσ h))
  | .record members, entry :: σ, hσ, h =>
    congrArg Nameless.record (Core.erasureMembers_substituted members _ hσ h)
  | .app _ type operator operand, entry :: σ, hσ, h => by
    obtain ⟨h, hoperand⟩ := List.forall_mem_append.mp h
    obtain ⟨-, hoperator⟩ := List.forall_mem_append.mp h
    exact congrArg₂ call (operator.erasure_substituted _ hσ hoperator)
      (operand.erasure_substituted _ hσ hoperand)
  | .proj _ type operator index, entry :: σ, hσ, h => by
    obtain ⟨-, hoperator⟩ := List.forall_mem_append.mp h
    exact congrArg (pick · index) (operator.erasure_substituted _ hσ hoperator)
  | .var x, entry :: σ, _, h => (h x (by simp [Core.freeNames])).symm

theorem Core.erasureMembers_substituted {τ υ : Ref → Nameless} : (ts : List Core) →
    (σ : Substitution) → σ.AvoidsAnonymous →
      (∀ x ∈ Core.freeNamesMembers ts, τ (.free x) = (σ.image x).erasure υ) →
        Core.erasureMembers υ (Core.substMembers σ ts) = Core.erasureMembers τ ts
  | [], _, _, _ => rfl
  | m :: ms, σ, hσ, h => by
    obtain ⟨hm, hms⟩ := List.forall_mem_append.mp h
    exact congrArg₂ Nameless.cons (m.erasure_substituted σ hσ hm)
      (Core.erasureMembers_substituted ms σ hσ hms)

end

/-! ### Other erasures of the same term -/

mutual

@[simp]
theorem Core.erasure_unstamped (τ : Ref → Nameless) : (t : Core) →
    t.unstamped.erasure τ = t.erasure τ
  | .univ _ | .quant .. | .signature _ | .var _ | .const _ => rfl
  | .lam _ _ body => congrArg Nameless.lam (body.erasure_unstamped _)
  | .record members => congrArg Nameless.record (Core.erasureMembers_unstamped τ members)
  | .app _ _ operator operand =>
    congrArg₂ call (operator.erasure_unstamped τ) (operand.erasure_unstamped τ)
  | .proj _ _ operator index => congrArg (pick · index) (operator.erasure_unstamped τ)

theorem Core.erasureMembers_unstamped (τ : Ref → Nameless) : (ts : List Core) →
    Core.erasureMembers τ (Core.unstampedMembers ts) = Core.erasureMembers τ ts
  | [] => rfl
  | m :: ms => congrArg₂ Nameless.cons (m.erasure_unstamped τ) (Core.erasureMembers_unstamped τ ms)

end

theorem Core.erasure_eq_of_unstamped_eq {s t : Core} (h : s.unstamped = t.unstamped)
    (τ : Ref → Nameless) : s.erasure τ = t.erasure τ := by
  rw [← s.erasure_unstamped, h, t.erasure_unstamped]

theorem Core.nth_erasureMembers (τ : Ref → Nameless) {members : List Core} {index : Nat}
    {member : Core} (h : members[index]? = some member) :
    (Core.erasureMembers τ members).nth index = some (member.erasure τ) := by
  induction members generalizing index with
  | nil => simp at h
  | cons m ms ih =>
    cases index with
    | zero =>
      obtain rfl : m = member := by simpa using h
      rfl
    | succ index => exact ih (by simpa using h)

/-- Below a binder, what stands for its name is the same. -/
theorem Nameless.Reduces.under {τ υ : Ref → Nameless} {name : String} {xs : List String}
    (h : ∀ x ∈ xs.filter (· != name), Reduces (τ (.free x)) (υ (.free x))) :
    ∀ x ∈ xs, Reduces (under τ name (.free x)) (under υ name (.free x)) := by
  intro x hx
  by_cases hname : x = name
  · subst hname
    rw [under_self, under_self]
  · rw [under_of_ne _ _ hname, under_of_ne _ _ hname]
    exact (h x (by simpa [hname] using hx)).congr shift fun _ _ hpar ↦ hpar.rename _

mutual

/-- What stands for the names of a term may be reduced. -/
theorem Core.erasure_reduces {τ υ : Ref → Nameless} : (t : Core) →
    (∀ x ∈ t.freeNames, Reduces (τ (.free x)) (υ (.free x))) →
      Reduces (t.erasure τ) (t.erasure υ)
  | .univ _, _ | .quant .., _ | .signature _, _ | .const _, _ => .refl
  | .lam _ _ body, h => (body.erasure_reduces (Nameless.Reduces.under h)).lam
  | .record members, h => (Core.erasureMembers_reduces members h).record
  | .app _ _ operator operand, h => by
    obtain ⟨h, hoperand⟩ := List.forall_mem_append.mp h
    obtain ⟨-, hoperator⟩ := List.forall_mem_append.mp h
    exact Reduces.app 0 .refl (operator.erasure_reduces hoperator)
      (operand.erasure_reduces hoperand)
  | .proj _ _ operator index, h => by
    obtain ⟨-, hoperator⟩ := List.forall_mem_append.mp h
    exact Reduces.proj 0 index .refl (operator.erasure_reduces hoperator)
  | .var x, h => h x (by simp [Core.freeNames])

theorem Core.erasureMembers_reduces {τ υ : Ref → Nameless} : (ts : List Core) →
    (∀ x ∈ Core.freeNamesMembers ts, Reduces (τ (.free x)) (υ (.free x))) →
      Reduces (Core.erasureMembers τ ts) (Core.erasureMembers υ ts)
  | [], _ => .refl
  | m :: ms, h => by
    obtain ⟨hm, hms⟩ := List.forall_mem_append.mp h
    exact (m.erasure_reduces hm).cons (Core.erasureMembers_reduces ms hms)

end

/-! ### Calls for what is evaluated -/

namespace Call

/-- The direct calls that a call makes for what is evaluated of its term. -/
inductive Runs : Call → Call → Prop
  | body {env : NormEnv} {c : Nat} {param : String} {stamp : Stamp} {body : Core} :
      Runs (core env (.lam param stamp body) c)
        (core (NormEnv.bind env param c).1.2 body (NormEnv.bind env param c).2)
  | record {env : NormEnv} {ts : List Core} {c : Nat} :
      Runs (core env (.record ts) c) (members env ts c)
  | head {env : NormEnv} {t : Core} {ts : List Core} {c : Nat} :
      Runs (members env (t :: ts) c) (core env t c)
  | tail {env : NormEnv} {t n : Core} {ts : List Core} {c c₁ : Nat} (ht : t.Normalizes env c n c₁) :
      Runs (members env (t :: ts) c) (members env ts c₁)
  | operator {env : NormEnv} {rank c : Nat} {type operator operand : Core} :
      Runs (core env (.app rank type operator operand) c) (core env operator c)
  | operand {env : NormEnv} {rank c c₁ : Nat} {type operator operator' operand : Core}
      (hoperator : operator.Normalizes env c operator' c₁) :
      Runs (core env (.app rank type operator operand) c) (core env operand c₁)
  | reduct {env : NormEnv} {rank c c₁ c₂ : Nat} {param : String} {stamp : Stamp}
      {type operator operand operand' body : Core}
      (hoperator : operator.Normalizes env c (.lam param stamp body) c₁)
      (hoperand : operand.Normalizes env c₁ operand' c₂) :
      Runs (core env (.app rank type operator operand) c)
        (core [] (body.subst (.single param operand')) c₂)
  | projected {env : NormEnv} {rank index c : Nat} {type operator : Core} :
      Runs (core env (.proj rank type operator index) c) (core env operator c)

theorem Runs.makes {call call' : Call} (h : call.Runs call') : call.Makes call' := by
  cases h with
  | body => exact .body
  | record => exact .record
  | head => exact .head
  | tail ht => exact .tail ht
  | operator => exact .operator
  | operand hoperator => exact .operand hoperator
  | reduct hoperator hoperand => exact .reduct hoperator hoperand
  | projected => exact .projected

/-- A call gives the parameter of a lambda the name of something else in its body, or enters a
lambda in such a way that the body is evaluated to something else. -/
inductive Disturbs : Call → Prop
  | body {env : NormEnv} {c : Nat} {param x : String} {stamp : Stamp} {body : Core}
      (hx : x ∈ body.freeNames) (hparam : x ≠ param)
      (h : (NormEnv.bind env param c).1.1 ∈ (NormEnv.image env x).freeNames) :
      Disturbs (core env (.lam param stamp body) c)
  | reduct {env : NormEnv} {rank c c₁ c₂ : Nat} {param : String} {stamp : Stamp}
      {type operator operand operand' body : Core}
      (hoperator : operator.Normalizes env c (.lam param stamp body) c₁)
      (hoperand : operand.Normalizes env c₁ operand' c₂)
      (h : ¬ ∀ τ, (body.subst (.single param operand')).erasure τ =
        body.erasure (rebind τ param (operand'.erasure τ))) :
      Disturbs (core env (.app rank type operator operand) c)

/-- None of the calls for what is evaluated changes what is evaluated. -/
def Faithful (call : Call) : Prop := ∀ call', ReflTransGen Runs call call' → ¬ call'.Disturbs

theorem Faithful.runs {call call' : Call} (h : call.Faithful) (hruns : call.Runs call') :
    call'.Faithful :=
  fun call'' hcalls ↦ h call'' (.head hruns hcalls)

theorem Faithful.not_disturbs {call : Call} (h : call.Faithful) : ¬ call.Disturbs :=
  h call .refl

/-- In a tame call, a term that is put in brings no anonymous variable with it. -/
theorem Tame.not_disturbs {L : String → Prop} (hL : OriginalLabels L) {call : Call}
    (h : call.Tame L) : ¬ call.Disturbs := by
  intro hdisturbs
  cases hdisturbs with
  | body hx hparam hmem => exact h.not_captures hL (.body hx hparam hmem)
  | reduct hoperator hoperand hnot =>
    obtain ⟨-, hoperand⟩ := h.reduct hL hoperator hoperand
    refine hnot fun τ ↦ Core.erasure_substituted _ _ (.single ?_ _) fun x _ ↦ ?_
    · intro hmem
      exact hoperand.below.ne_anonymous hmem rfl
    · rw [Substitution.image_single]
      split
      · rename_i hx
        rw [hx, rebind_self]
      · rename_i hx
        rw [rebind_of_ne _ _ _ hx]
        rfl

theorem Tame.faithful {L : String → Prop} (hL : OriginalLabels L) {call : Call} (h : call.Tame L) :
    call.Faithful := by
  intro call' hcalls
  have htame : call'.Tame L := by
    induction hcalls with
    | refl => exact h
    | tail _ hruns ih => exact ih.makes hL hruns.makes
  exact htame.not_disturbs hL

end Call

/-! ### Reduction to the normal form -/

/-- Below the parameter of a lambda, what stands for the other names is the same, shifted. -/
theorem NormEnv.erasure_image_bind {τ υ : Ref → Nameless} {env : NormEnv} {c : Nat} {name : String}
    {body : Core}
    (hfresh : ∀ x ∈ body.freeNames, x ≠ name →
      (NormEnv.bind env name c).1.1 ∉ (NormEnv.image env x).freeNames)
    (h : ∀ x ∈ body.freeNames.filter (· != name), τ (.free x) = (NormEnv.image env x).erasure υ) :
    ∀ x ∈ body.freeNames, under τ name (.free x) =
      (NormEnv.image (NormEnv.bind env name c).1.2 x).erasure
        (under υ (NormEnv.bind env name c).1.1) := by
  intro x hx
  rw [NormEnv.image_bind]
  by_cases hname : x = name
  · subst hname
    rw [if_pos rfl, under_self]
    exact (under_self υ _).symm
  · rw [if_neg hname, under_of_ne τ name hname, Core.erasure_under υ (hfresh x hx hname),
      h x (by simpa [hname] using hx)]

/-- An applied lambda is contracted to its body with the operand for the parameter. -/
theorem Core.reduces_erasure_reduct {s body operand : Core} {param : String}
    (h : ∀ τ, s.erasure τ = body.erasure (rebind τ param (operand.erasure τ))) (υ : Ref → Nameless)
    (stamp : Stamp) :
    Reduces (call ((Core.lam param stamp body).erasure υ) (operand.erasure υ)) (s.erasure υ) := by
  rw [h υ]
  exact Core.reduces_erasure_call υ param body (operand.erasure υ)

mutual

/-- Where names stand for what they do in the environment, the erasure of a term reduces to that of
its normal form. -/
theorem Core.Normalizes.reduces_erasure {τ υ : Ref → Nameless} {env : NormEnv} {t n : Core}
    {c c' : Nat} :
    t.Normalizes env c n c' → (Call.core env t c).Faithful →
      (∀ x ∈ t.freeNames, τ (.free x) = (NormEnv.image env x).erasure υ) →
      Reduces (t.erasure τ) (n.erasure υ)
  | .univ, _, _ | .const, _, _ | .quant .., _, _ | .signature _, _, _ => .refl
  | .var, _, h => by
    rw [← h _ (by simp [Core.freeNames])]
    exact .refl
  | .lam hbody, hfaithful, h => by
    refine (hbody.reduces_erasure (hfaithful.runs .body) (NormEnv.erasure_image_bind ?_ h)).lam
    intro x hx hparam hmem
    exact hfaithful.not_disturbs (.body hx hparam hmem)
  | .record hmembers, hfaithful, h =>
    (hmembers.reduces_erasure (hfaithful.runs .record) h).record
  | .beta hoperator hoperand hresult, hfaithful, h => by
    obtain ⟨h, ha⟩ := List.forall_mem_append.mp h
    obtain ⟨-, ho⟩ := List.forall_mem_append.mp h
    have hreduct := by_contra fun hnot ↦
      hfaithful.not_disturbs (.reduct hoperator hoperand hnot)
    have ho := hoperator.reduces_erasure (hfaithful.runs .operator) ho
    have ha := hoperand.reduces_erasure (hfaithful.runs (.operand hoperator)) ha
    -- the reduct is normalized where names stand for themselves
    have hrest := hresult.reduces_erasure (hfaithful.runs (.reduct hoperator hoperand))
      fun x _ ↦ (rfl : υ (.free x) = _)
    exact ((Reduces.app 0 .refl ho ha).trans (Core.reduces_erasure_reduct hreduct υ _)).trans hrest
  | .app hoperator _ hoperand _, hfaithful, h => by
    obtain ⟨h, ha⟩ := List.forall_mem_append.mp h
    obtain ⟨-, ho⟩ := List.forall_mem_append.mp h
    exact Reduces.app 0 .refl (hoperator.reduces_erasure (hfaithful.runs .operator) ho)
      (hoperand.reduces_erasure (hfaithful.runs (.operand hoperator)) ha)
  | .select hoperator hmember, hfaithful, h => by
    obtain ⟨-, ho⟩ := List.forall_mem_append.mp h
    have hparts := hoperator.reduces_erasure (hfaithful.runs .projected) ho
    exact (Reduces.proj 0 _ .refl hparts).tail
      (.select 0 _ (.refl _) (Core.nth_erasureMembers υ hmember))
  | .proj hoperator _ _, hfaithful, h => by
    obtain ⟨-, ho⟩ := List.forall_mem_append.mp h
    exact Reduces.proj 0 _ .refl (hoperator.reduces_erasure (hfaithful.runs .projected) ho)

theorem Core.NormalizesMembers.reduces_erasure {τ υ : Ref → Nameless} {env : NormEnv}
    {ts ns : List Core} {c c' : Nat} :
    Core.NormalizesMembers env ts c ns c' → (Call.members env ts c).Faithful →
      (∀ x ∈ Core.freeNamesMembers ts, τ (.free x) = (NormEnv.image env x).erasure υ) →
      Reduces (Core.erasureMembers τ ts) (Core.erasureMembers υ ns)
  | .nil, _, _ => .refl
  | .cons hhead htail, hfaithful, h => by
    obtain ⟨hm, hms⟩ := List.forall_mem_append.mp h
    exact (hhead.reduces_erasure (hfaithful.runs .head) hm).cons
      (htail.reduces_erasure (hfaithful.runs (.tail hhead)) hms)

end

/-! ### Terms that compute no datum -/

/-- No reduct of the term computes a datum. -/
def Nameless.Inert (u : Nameless) : Prop := ∀ u' v, Reduces u u' → ¬ u'.Computes v

/-- The forms of terms whose values are no data. -/
inductive Nameless.NonDatum : Nameless → Prop
  | univ (rank : Nat) : NonDatum (.univ rank)
  | host (key : HostKey) : NonDatum (.const (.host key))
  | applied (op : BinaryOp) (n : Nat) (type operand : Nameless) :
      NonDatum (.app n type (.const (.host (.binary op))) operand)
  | lam (body : Nameless) : NonDatum (.lam body)
  | record (members : Nameless) : NonDatum (.record members)

namespace Nameless.NonDatum

theorem par {u u' : Nameless} (h : u.NonDatum) (hpar : Par u u') : u'.NonDatum := by
  cases h with
  | univ rank =>
    cases hpar
    exact .univ rank
  | host key =>
    cases hpar
    exact .host key
  | applied op n type operand =>
    obtain ⟨_, _, _, rfl, -, hoperator, -⟩ | ⟨_, hlam⟩ := hpar.app_cases
    · cases hoperator
      exact .applied op n _ _
    · cases hlam
  | lam body =>
    cases hpar
    exact .lam _
  | record members =>
    cases hpar
    exact .record _

theorem not_computes {u : Nameless} {v : Value} (h : u.NonDatum) : ¬ u.Computes v := by
  intro hv
  cases h <;> cases hv

theorem inert {u : Nameless} (h : u.NonDatum) : u.Inert := by
  intro u' v hu
  suffices u'.NonDatum from this.not_computes
  induction hu with
  | refl => exact h
  | tail _ hstep ih => exact ih.par hstep

end Nameless.NonDatum

/-- A value is the datum that the term computes which it is read off, if the values of types are
read off inert terms only. -/
theorem Value.Reads.eq_of_computes {v w : Value} {u u' : Nameless} (h : v.Reads Inert u)
    (hu : Reduces u u') (hw : u'.Computes w) : v = w := by
  cases h with
  | type => exact absurd hw ((NonDatum.univ 0).inert u' w hu)
  | absent hinert => exact absurd hw (hinert u' w hu)
  | datum hv => exact (hv.reduces hu).deterministic hw
  | operation op => exact absurd hw ((NonDatum.host _).inert u' w hu)
  | applied op _ n type _ => exact absurd hw ((NonDatum.applied op n type _).inert u' w hu)
  | identity => exact absurd hw ((NonDatum.lam _).inert u' w hu)
  | failing => exact absurd hw ((NonDatum.host _).inert u' w hu)
  | halving => exact absurd hw ((NonDatum.host _).inert u' w hu)
  | record _ => exact absurd hw ((NonDatum.record _).inert u' w hu)
  | closure _ _ _ _ => exact absurd hw ((NonDatum.lam _).inert u' w hu)

end RankedTT
