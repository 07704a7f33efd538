import RankedTT.Proofs.NamelessForm

/-!
The meaning of a core term: its nameless form, with what its free names stand for put in. The
meaning of a term below a binder is that of the term where the name of the binder stands for the
innermost variable, and putting a term in for that variable gives the meaning where the name stands
for the term.
-/

set_option autoImplicit false
set_option relaxedAutoImplicit false

namespace RankedTT

open Nameless

/-! ### Valuations -/

/-- Another term for a free name. -/
def Nameless.rebind (τ : Ref → Nameless) (name : String) (u : Nameless) : Ref → Nameless
  | .free x => if x = name then u else τ (.free x)
  | .bound i => τ (.bound i)

/-- Below a binder for a name. -/
def Nameless.under (τ : Ref → Nameless) (name : String) : Ref → Nameless :=
  rebind (fun v ↦ (τ v).shift) name (.var (.bound 0))

/-- Names stand for the nameless forms of core terms. -/
def Nameless.named (image : String → Core) : Ref → Nameless
  | .free x => (image x).nameless []
  | .bound i => .var (.bound i)

/-- Turn a free name into the innermost binder. -/
def Nameless.close (name : String) : Ref → Nameless
  | .free x => .var (.ofName [name] x)
  | .bound i => .var (.bound (i + 1))

section Valuations

variable (τ : Ref → Nameless) (name : String) (u t : Nameless)

@[simp]
theorem Nameless.rebind_self : rebind τ name u (.free name) = u := by
  simp [rebind]

theorem Nameless.rebind_of_ne {x : String} (h : x ≠ name) :
    rebind τ name u (.free x) = τ (.free x) := by
  simp [rebind, h]

@[simp]
theorem Nameless.under_self : under τ name (.free name) = .var (.bound 0) :=
  rebind_self _ _ _

theorem Nameless.under_of_ne {x : String} (h : x ≠ name) :
    under τ name (.free x) = (τ (.free x)).shift :=
  rebind_of_ne _ _ _ h

theorem Nameless.subst_close : (t.subst (close name)).subst (lift τ) = t.subst (under τ name) := by
  rw [subst_subst]
  congr 1
  funext v
  cases v with
  | bound i => rfl
  | free x =>
    by_cases hx : x = name
    · subst hx
      simp [close, Ref.ofName, Nameless.subst, lift]
    · simp [close, under_of_ne τ name hx, hx, Ref.ofName, Ref.rename, Nameless.subst, lift]

theorem Nameless.inst_subst_under :
    (t.subst (under τ name)).inst u = t.subst (rebind τ name u) := by
  rw [inst, subst_subst]
  congr 1
  funext v
  cases v with
  | bound i => exact inst_shift _ u
  | free x =>
    by_cases hx : x = name
    · subst hx
      simp [Nameless.subst, instantiation]
    · rw [under_of_ne τ name hx, rebind_of_ne τ name u hx]
      exact inst_shift _ u

end Valuations

/-! ### Meanings -/

def Core.meaning (τ : Ref → Nameless) (t : Core) : Nameless := (t.nameless []).subst τ

def Telescope.meaning (τ : Ref → Nameless) (types : Telescope) : Nameless :=
  (types.nameless []).subst τ

def Core.meaningMembers (τ : Ref → Nameless) (members : List Core) : Nameless :=
  (Core.namelessMembers [] members).subst τ

@[simp]
theorem Core.meaning_var (t : Core) : t.meaning .var = t.nameless [] :=
  Nameless.subst_var _

section Meanings

variable (τ : Ref → Nameless)

theorem Core.meaning_bind (t : Core) (name : String) :
    (t.nameless [name]).subst (lift τ) = t.meaning (under τ name) := by
  have hclose : (t.nameless []).subst (close name) = t.nameless [name] :=
    t.nameless_scope fun _ _ ↦ rfl
  rw [← hclose, Nameless.subst_close, meaning]

theorem Telescope.meaning_bind (t : Telescope) (name : String) :
    (t.nameless [name]).subst (lift τ) = t.meaning (under τ name) := by
  have hclose : (t.nameless []).subst (close name) = t.nameless [name] :=
    t.nameless_scope fun _ _ ↦ rfl
  rw [← hclose, Nameless.subst_close, meaning]

@[simp]
theorem Core.meaning_quant (polarity : Polarity) (rank : Nat) (domain codomain : Core)
    (name : String) :
    (Core.quant polarity rank domain name codomain).meaning τ =
      .quant polarity rank (domain.meaning τ) (codomain.meaning (under τ name)) := by
  rw [← codomain.meaning_bind]
  rfl

@[simp]
theorem Core.meaning_lam (param : String) (stamp : Stamp) (body : Core) :
    (Core.lam param stamp body).meaning τ = .lam (body.meaning (under τ param)) := by
  rw [← body.meaning_bind]
  rfl

@[simp]
theorem Telescope.meaning_cons (rank : Nat) (type : Core) (name : String) (rest : Telescope) :
    (Telescope.cons rank type name rest).meaning τ =
      .declare rank (type.meaning τ) name (rest.meaning (under τ name)) := by
  rw [← rest.meaning_bind]
  rfl

/-- A term in place of the variable of a binder. -/
theorem Core.inst_meaning (t : Core) (name : String) (u : Nameless) :
    (t.meaning (under τ name)).inst u = t.meaning (rebind τ name u) :=
  inst_subst_under τ name u _

theorem Telescope.inst_meaning (t : Telescope) (name : String) (u : Nameless) :
    (t.meaning (under τ name)).inst u = t.meaning (rebind τ name u) :=
  inst_subst_under τ name u _

end Meanings

/-- Only the free names matter. -/
theorem Core.meaning_congr {τ υ : Ref → Nameless} {t : Core}
    (h : ∀ x ∈ t.freeNames, τ (.free x) = υ (.free x)) : t.meaning τ = t.meaning υ := by
  classical
  let ρ : Ref → Nameless
    | .free x => if x ∈ t.freeNames then .var (.free x) else .univ 0
    | .bound _ => .univ 0
  have hρ : (t.nameless []).subst ρ = t.nameless [] :=
    t.nameless_scope fun x hx ↦ by simp [ρ, Ref.ofName, hx]
  rw [meaning, meaning, ← hρ, subst_subst, subst_subst]
  congr 1
  funext v
  cases v with
  | bound i => rfl
  | free x =>
    by_cases hx : x ∈ t.freeNames
    · simpa [ρ, hx, Nameless.subst] using h x hx
    · simp [ρ, hx, Nameless.subst]

theorem Core.meaning_rebind (τ : Ref → Nameless) {t : Core} {name : String}
    (h : name ∉ t.freeNames) (u : Nameless) : t.meaning (rebind τ name u) = t.meaning τ := by
  refine meaning_congr fun x hx ↦ rebind_of_ne τ name u ?_
  rintro rfl
  exact h hx

theorem Core.meaning_under (τ : Ref → Nameless) {t : Core} {name : String}
    (h : name ∉ t.freeNames) : t.meaning (under τ name) = (t.meaning τ).shift := by
  rw [under, Core.meaning_rebind _ h, meaning, meaning, shift, rename_subst]
  rfl

/-! ### Instances -/

/-- Names stand for core terms, whose names stand for other terms. -/
def Nameless.through (image : String → Core) (τ : Ref → Nameless) : Ref → Nameless
  | .free x => (image x).meaning τ
  | .bound i => τ (.bound i)

theorem Core.subst_meaning_named (t : Core) (image : String → Core) (τ : Ref → Nameless) :
    (t.meaning (named image)).subst τ = t.meaning (through image τ) := by
  rw [meaning, subst_subst, meaning]
  congr 1
  funext v
  cases v <;> rfl

/-- In `s`, the terms of the substitution stand for the free names of `t`, and no binder of `t`
captures anything in them. -/
def Core.IsInstanceOf (s t : Core) (σ : Substitution) : Prop :=
  s.nameless [] = t.meaning (named σ.image)

theorem Core.subst_isInstanceOf {t : Core} {σ : Substitution} (hσ : σ.AvoidsAnonymous)
    (hlabels : σ.AvoidsLabels t.names) : (t.subst σ).IsInstanceOf t σ :=
  (t.nameless_subst σ hσ hlabels fun _ _ ↦ rfl).symm

theorem Core.IsInstanceOf.meaning_eq {s t : Core} {σ : Substitution} (h : s.IsInstanceOf t σ)
    (τ : Ref → Nameless) : s.meaning τ = t.meaning (through σ.image τ) := by
  rw [← t.subst_meaning_named, ← h, meaning]

theorem Core.IsInstanceOf.meaning_single {s t operand : Core} {name : String}
    (h : s.IsInstanceOf t (.single name operand)) (τ : Ref → Nameless) :
    s.meaning τ = t.meaning (rebind τ name (operand.meaning τ)) := by
  rw [h.meaning_eq]
  refine meaning_congr fun x _ ↦ ?_
  rw [through, Substitution.image_single]
  by_cases hx : x = name
  · subst hx
    rw [if_pos rfl, rebind_self]
  · rw [if_neg hx, rebind_of_ne _ _ _ hx]
    rfl

end RankedTT
