import RankedTT.Proofs.Alike
import RankedTT.Proofs.Confluence
import RankedTT.Proofs.Meaning

/-!
What evaluation looks at. The erasure of a term is its nameless form without types, in which a
constant is unfolded: in place of a closure stands the lambda that it was made from, with what it
captured put in. The equality of values keeps less of a closure than that, so a nameless term is
erased given what its constants are unfolded to. Erasure keeps reduction.
-/

set_option autoImplicit false
set_option relaxedAutoImplicit false

namespace RankedTT

open Nameless

namespace Nameless

/-- An application without its type. -/
abbrev call (function argument : Nameless) : Nameless := app 0 (univ 0) function argument

/-- A projection without its type. -/
abbrev pick (record : Nameless) (index : Nat) : Nameless := proj 0 (univ 0) record index

/-- Erase types and unfold constants. -/
def erase (κ : ValueKey → Nameless) : Nameless → Nameless
  | univ _ | quant .. | signature _ | declare .. => univ 0
  | lam body => lam (body.erase κ)
  | record members => record (members.erase κ)
  | cons head tail => cons (head.erase κ) (tail.erase κ)
  | nil => nil
  | app _ _ operator operand => call (operator.erase κ) (operand.erase κ)
  | proj _ _ operator index => pick (operator.erase κ) index
  | var ref => var ref
  | const key => κ key

section Erase

variable {κ : ValueKey → Nameless} (hκ : ∀ key υ, (κ key).subst υ = κ key)

include hκ

theorem erase_rename (t : Nameless) (r : Nat → Nat) :
    (t.rename r).erase κ = (t.erase κ).rename r := by
  induction t generalizing r with
  | const key => rw [rename, erase, rename_eq_subst, hκ]
  | _ => simp_all [rename, erase]

theorem erase_lift (τ : Ref → Nameless) :
    (fun v ↦ (lift τ v).erase κ) = lift fun v ↦ (τ v).erase κ := by
  funext v
  rcases v with ⟨⟨⟩ | i⟩ | x
  · rfl
  · exact erase_rename hκ _ _
  · exact erase_rename hκ _ _

theorem erase_subst (t : Nameless) (τ : Ref → Nameless) :
    (t.subst τ).erase κ = (t.erase κ).subst fun v ↦ (τ v).erase κ := by
  induction t generalizing τ with
  | const key => rw [subst, erase, hκ]
  | var ref => rfl
  | _ => simp_all [subst, erase, erase_lift hκ]

theorem erase_inst (body a : Nameless) :
    (body.inst a).erase κ = (body.erase κ).inst (a.erase κ) := by
  rw [inst, erase_subst hκ, inst]
  congr 1
  funext v
  rcases v with ⟨⟨⟩ | i⟩ | x <;> rfl

theorem erase_under (τ : Ref → Nameless) (name : String) :
    (fun v ↦ (under τ name v).erase κ) = under (fun v ↦ (τ v).erase κ) name := by
  funext v
  cases v with
  | bound i => exact erase_rename hκ _ _
  | free x =>
    by_cases hx : x = name
    · subst hx
      rw [under_self, under_self, erase]
    · rw [under_of_ne _ _ hx, under_of_ne _ _ hx]
      exact erase_rename hκ _ _

omit hκ in
theorem nth_erase (t : Nameless) {i : Nat} {m : Nameless} (h : t.nth i = some m) :
    (t.erase κ).nth i = some (m.erase κ) := by
  induction t generalizing i with
  | cons head tail _ ih =>
    cases i with
    | zero => simpa [nth, erase] using congrArg (Option.map (erase κ)) h
    | succ i => exact ih h
  | _ => simp [nth] at h

theorem Par.erase {s t : Nameless} (h : Par s t) : Par (s.erase κ) (t.erase κ) := by
  induction h with
  | univ | const | var | nil | quant | signature | declare => exact .refl _
  | lam _ h => exact .lam h
  | record _ h => exact .record h
  | cons _ _ hhead htail => exact .cons hhead htail
  | app _ _ _ _ _ hoperator hoperand => exact .app 0 (.refl _) hoperator hoperand
  | proj _ index _ _ _ hoperator => exact .proj 0 index (.refl _) hoperator
  | beta _ _ _ _ hbody hoperand =>
    rw [erase_inst hκ]
    exact .beta 0 _ hbody hoperand
  | select _ _ _ hmember hmembers => exact .select 0 _ hmembers (nth_erase _ hmember)

theorem Reduces.erase {s t : Nameless} (h : Reduces s t) : Reduces (s.erase κ) (t.erase κ) := by
  induction h with
  | refl => exact .refl
  | tail _ hstep ih => exact ih.tail (hstep.erase hκ)

end Erase

theorem subst_under (τ υ : Ref → Nameless) (name : String) :
    (fun v ↦ (under τ name v).subst (lift υ)) = under (fun v ↦ (τ v).subst υ) name := by
  funext v
  cases v with
  | bound i => exact subst_shift _ υ
  | free x =>
    by_cases hx : x = name
    · subst hx
      rw [under_self, under_self]
      rfl
    · rw [under_of_ne _ _ hx, under_of_ne _ _ hx]
      exact subst_shift _ υ

theorem inst_under (τ : Ref → Nameless) (name : String) (u : Nameless) :
    (fun v ↦ (under τ name v).subst (instantiation u)) = rebind τ name u := by
  funext v
  cases v with
  | bound i => exact inst_shift _ u
  | free x =>
    by_cases hx : x = name
    · subst hx
      rw [under_self, rebind_self]
      rfl
    · rw [under_of_ne _ _ hx, rebind_of_ne _ _ _ hx]
      exact inst_shift _ u

end Nameless

/-! ### Terms and values -/

mutual

/-- The erasure of a term whose names stand for other terms. -/
def Core.erasure (τ : Ref → Nameless) : Core → Nameless
  | .univ _ | .quant .. | .signature _ => .univ 0
  | .lam param _ body => .lam (body.erasure (under τ param))
  | .record members => .record (Core.erasureMembers τ members)
  | .app _ _ operator operand => call (operator.erasure τ) (operand.erasure τ)
  | .proj _ _ operator index => pick (operator.erasure τ) index
  | .var name => τ (.free name)
  | .const value => value.erasure

def Core.erasureMembers (τ : Ref → Nameless) : List Core → Nameless
  | [] => .nil
  | m :: ms => .cons (m.erasure τ) (Core.erasureMembers τ ms)

/-- The closed term that a value comes from. -/
def Value.erasure : Value → Nameless
  | .absent => .univ 0
  | .int n => .const (.int n)
  | .str s => .const (.str s)
  | .record members => .record (Value.erasureMembers members)
  | .closure env param _ body => .lam (body.erasure (under (Value.erasureBindings env) param))
  | .host function => function.erasure

def Value.erasureMembers : List Value → Nameless
  | [] => .nil
  | v :: vs => .cons v.erasure (Value.erasureMembers vs)

/-- What the names of an environment stand for. -/
def Value.erasureBindings : List (String × Value) → Ref → Nameless
  | [] => fun _ ↦ .univ 0
  | (x, v) :: env => rebind (Value.erasureBindings env) x v.erasure

def HostFn.erasure : HostFn → Nameless
  | .binary op => .const (.host (.binary op))
  | .applied op lhs _ => call (.const (.host (.binary op))) lhs.erasure
  | .identity => .lam (.var (.bound 0))
  | .failing => .const (.host .failing)
  | .halving => .const (.host .halving)

end

mutual

theorem Core.erasure_subst : (t : Core) → (τ υ : Ref → Nameless) →
    (t.erasure τ).subst υ = t.erasure fun v ↦ (τ v).subst υ
  | .univ _, _, _ | .quant .., _, _ | .signature _, _, _ | .var _, _, _ => rfl
  | .lam param _ body, τ, υ => by
    rw [Core.erasure, Nameless.subst, body.erasure_subst, Nameless.subst_under, Core.erasure]
  | .record members, τ, υ => by
    rw [Core.erasure, Nameless.subst, Core.erasureMembers_subst members, Core.erasure]
  | .app _ _ operator operand, τ, υ => by
    simp only [Core.erasure, Nameless.subst, operator.erasure_subst, operand.erasure_subst]
  | .proj _ _ operator _, τ, υ => by
    simp only [Core.erasure, Nameless.subst, operator.erasure_subst]
  | .const value, _, υ => value.erasure_closed υ

theorem Core.erasureMembers_subst : (ts : List Core) → (τ υ : Ref → Nameless) →
    (Core.erasureMembers τ ts).subst υ = Core.erasureMembers (fun v ↦ (τ v).subst υ) ts
  | [], _, _ => rfl
  | m :: ms, τ, υ => by
    simp only [Core.erasureMembers, Nameless.subst, m.erasure_subst,
      Core.erasureMembers_subst ms]

theorem Value.erasure_closed : (v : Value) → (υ : Ref → Nameless) → v.erasure.subst υ = v.erasure
  | .absent, _ | .int _, _ | .str _, _ => rfl
  | .record members, υ => by
    rw [Value.erasure, Nameless.subst, Value.erasureMembers_closed members]
  | .closure env param _ body, υ => by
    have henv : (fun v ↦ (Value.erasureBindings env v).subst υ) = Value.erasureBindings env :=
      funext fun v ↦ Value.erasureBindings_closed env v υ
    rw [Value.erasure, Nameless.subst, body.erasure_subst, Nameless.subst_under, henv]
  | .host (.binary _), _ | .host .identity, _ | .host .failing, _ | .host .halving, _ => rfl
  | .host (.applied _ lhs _), υ => by
    simp only [Value.erasure, HostFn.erasure, Nameless.subst, lhs.erasure_closed υ]

theorem Value.erasureMembers_closed : (vs : List Value) → (υ : Ref → Nameless) →
    (Value.erasureMembers vs).subst υ = Value.erasureMembers vs
  | [], _ => rfl
  | v :: vs, υ => by
    simp only [Value.erasureMembers, Nameless.subst, v.erasure_closed,
      Value.erasureMembers_closed vs]

theorem Value.erasureBindings_closed : (env : List (String × Value)) → (v : Ref) →
    (υ : Ref → Nameless) → (Value.erasureBindings env v).subst υ = Value.erasureBindings env v
  | [], _, _ => rfl
  | (x, w) :: env, .bound i, υ => Value.erasureBindings_closed env (.bound i) υ
  | (x, w) :: env, .free y, υ => by
    by_cases hy : y = x
    · subst hy
      rw [Value.erasureBindings, rebind_self, w.erasure_closed]
    · rw [Value.erasureBindings, rebind_of_ne _ _ _ hy, Value.erasureBindings_closed env]

end

mutual

/-- The erasure of a term depends on the names that occur in it only. -/
theorem Core.erasure_congr {τ υ : Ref → Nameless} : (t : Core) →
    (∀ x ∈ t.freeNames, τ (.free x) = υ (.free x)) → t.erasure τ = t.erasure υ
  | .univ _, _ | .quant .., _ | .signature _, _ | .const _, _ => rfl
  | .lam param _ body, h => by
    refine congrArg Nameless.lam (body.erasure_congr fun x hx ↦ ?_)
    by_cases hparam : x = param
    · subst hparam
      rw [under_self, under_self]
    · have hmem : x ∈ body.freeNames.filter (· != param) := by simp [hx, hparam]
      rw [under_of_ne _ _ hparam, under_of_ne _ _ hparam, h x hmem]
  | .record members, h => congrArg Nameless.record (Core.erasureMembers_congr members h)
  | .app _ _ operator operand, h => by
    obtain ⟨h, hoperand⟩ := List.forall_mem_append.mp h
    obtain ⟨-, hoperator⟩ := List.forall_mem_append.mp h
    exact congrArg₂ call (operator.erasure_congr hoperator) (operand.erasure_congr hoperand)
  | .proj _ _ operator index, h => by
    obtain ⟨-, hoperator⟩ := List.forall_mem_append.mp h
    exact congrArg (pick · index) (operator.erasure_congr hoperator)
  | .var name, h => h name (List.mem_singleton_self name)

theorem Core.erasureMembers_congr {τ υ : Ref → Nameless} : (ts : List Core) →
    (∀ x ∈ Core.freeNamesMembers ts, τ (.free x) = υ (.free x)) →
      Core.erasureMembers τ ts = Core.erasureMembers υ ts
  | [], _ => rfl
  | m :: ms, h => by
    obtain ⟨hm, hms⟩ := List.forall_mem_append.mp h
    exact congrArg₂ Nameless.cons (m.erasure_congr hm) (Core.erasureMembers_congr ms hms)

end

/-- A term in place of the variable of a binder. -/
theorem Core.inst_erasure (t : Core) (τ : Ref → Nameless) (name : String) (u : Nameless) :
    (t.erasure (under τ name)).inst u = t.erasure (rebind τ name u) := by
  rw [inst, t.erasure_subst, inst_under]

mutual

/-- The erasure of a term is that of its nameless form, if constants are unfolded in the same
way. -/
theorem Core.erase_meaning {κ : ValueKey → Nameless} (hκ : ∀ key υ, (κ key).subst υ = κ key) :
    (t : Core) → (τ : Ref → Nameless) → (∀ v ∈ t.constants, κ v.key = v.erasure) →
      (t.meaning τ).erase κ = t.erasure fun v ↦ (τ v).erase κ
  | .univ _, _, _ | .quant .., _, _ | .signature _, _, _ | .var _, _, _ => rfl
  | .lam param _ body, τ, h => by
    rw [Core.meaning_lam, Nameless.erase, body.erase_meaning hκ _ h, erase_under hκ, Core.erasure]
  | .record members, τ, h => congrArg Nameless.record (Core.erase_meaningMembers hκ members τ h)
  | .app _ _ operator operand, τ, h => by
    obtain ⟨h, hoperand⟩ := List.forall_mem_append.mp h
    obtain ⟨_, hoperator⟩ := List.forall_mem_append.mp h
    exact congrArg₂ call (operator.erase_meaning hκ τ hoperator)
      (operand.erase_meaning hκ τ hoperand)
  | .proj _ _ operator index, τ, h => by
    obtain ⟨_, hoperator⟩ := List.forall_mem_append.mp h
    exact congrArg (pick · index) (operator.erase_meaning hκ τ hoperator)
  | .const value, _, h => h value (List.mem_singleton_self value)

theorem Core.erase_meaningMembers {κ : ValueKey → Nameless}
    (hκ : ∀ key υ, (κ key).subst υ = κ key) :
    (ts : List Core) → (τ : Ref → Nameless) →
      (∀ v ∈ Core.constantsMembers ts, κ v.key = v.erasure) →
      (Core.meaningMembers τ ts).erase κ = Core.erasureMembers (fun v ↦ (τ v).erase κ) ts
  | [], _, _ => rfl
  | m :: ms, τ, h => by
    obtain ⟨hm, hms⟩ := List.forall_mem_append.mp h
    exact congrArg₂ Nameless.cons (m.erase_meaning hκ τ hm)
      (Core.erase_meaningMembers hκ ms τ hms)

end

end RankedTT
