import RankedTT.Proofs.Normalizes
import RankedTT.Proofs.Substitution

/-!
Recorded types. A term is well annotated if the type that is recorded on the operator of an
application is a universal quantifier, and the type that is recorded on the operator of a projection
is a record type with a member at the projected position, at every depth. A quantifier stays a
quantifier and a record type keeps its members under substitution and normalization, so both keep
terms well annotated.
-/

set_option autoImplicit false
set_option relaxedAutoImplicit false

namespace RankedTT

/-! ### Recorded types -/

/-- Whether the term is a universal quantifier, as the type of a function has to be. -/
def Core.isFunctionType : Core → Bool
  | .quant .universal .. => true
  | _ => false

/-- Whether the term is a record type with a member at the position. -/
def Core.declaresMember (index : Nat) : Core → Bool
  | .signature members => index < members.length
  | _ => false

mutual

/-- Whether the types recorded on all operators have the form that the application or projection
needs, also in the closures among the constants. -/
def Core.isWellAnnotated : Core → Bool
  | .univ _ | .var _ => true
  | .quant _ _ domain _ codomain => domain.isWellAnnotated && codomain.isWellAnnotated
  | .signature members => members.isWellAnnotated
  | .lam _ _ body => body.isWellAnnotated
  | .record members => Core.isWellAnnotatedMembers members
  | .app _ type operator operand =>
    type.isFunctionType && type.isWellAnnotated && operator.isWellAnnotated &&
      operand.isWellAnnotated
  | .proj _ type operator index =>
    type.declaresMember index && type.isWellAnnotated && operator.isWellAnnotated
  | .const value => value.isWellAnnotated

def Telescope.isWellAnnotated : Telescope → Bool
  | .nil => true
  | .cons _ type _ rest => type.isWellAnnotated && rest.isWellAnnotated

def Core.isWellAnnotatedMembers : List Core → Bool
  | [] => true
  | m :: ms => m.isWellAnnotated && Core.isWellAnnotatedMembers ms

def Value.isWellAnnotated : Value → Bool
  | .absent | .int _ | .str _ => true
  | .record members => Value.isWellAnnotatedMembers members
  | .closure env _ _ body => Value.isWellAnnotatedBindings env && body.isWellAnnotated
  | .host function => function.isWellAnnotated

def Value.isWellAnnotatedMembers : List Value → Bool
  | [] => true
  | v :: vs => v.isWellAnnotated && Value.isWellAnnotatedMembers vs

def Value.isWellAnnotatedBindings : List (String × Value) → Bool
  | [] => true
  | (_, v) :: env => v.isWellAnnotated && Value.isWellAnnotatedBindings env

def HostFn.isWellAnnotated : HostFn → Bool
  | .applied _ lhs _ => lhs.isWellAnnotated
  | .binary _ | .identity | .failing | .halving => true

end

/-! ### Stamps -/

theorem Core.isFunctionType_unstamped (t : Core) :
    t.unstamped.isFunctionType = t.isFunctionType := by
  cases t with
  | quant polarity => cases polarity <;> rfl
  | _ => rfl

theorem Telescope.length_unstamped (t : Telescope) : t.unstamped.length = t.length := by
  cases t with
  | nil => rfl
  | cons _ _ _ rest => exact congrArg (· + 1) rest.length_unstamped

theorem Core.declaresMember_unstamped (t : Core) (index : Nat) :
    t.unstamped.declaresMember index = t.declaresMember index := by
  cases t with
  | signature members =>
    simp only [Core.unstamped, Core.declaresMember, members.length_unstamped]
  | _ => rfl

mutual

theorem Core.isWellAnnotated_unstamped :
    (t : Core) → t.unstamped.isWellAnnotated = t.isWellAnnotated
  | .univ _ | .var _ | .const _ => rfl
  | .quant _ _ domain _ codomain => by
    simp only [Core.unstamped, Core.isWellAnnotated, domain.isWellAnnotated_unstamped,
      codomain.isWellAnnotated_unstamped]
  | .signature members => members.isWellAnnotated_unstamped
  | .lam _ _ body => body.isWellAnnotated_unstamped
  | .record members => Core.isWellAnnotatedMembers_unstampedMembers members
  | .app _ type operator operand => by
    simp only [Core.unstamped, Core.isWellAnnotated, type.isFunctionType_unstamped,
      type.isWellAnnotated_unstamped, operator.isWellAnnotated_unstamped,
      operand.isWellAnnotated_unstamped]
  | .proj _ type operator _ => by
    simp only [Core.unstamped, Core.isWellAnnotated, type.declaresMember_unstamped,
      type.isWellAnnotated_unstamped, operator.isWellAnnotated_unstamped]

theorem Telescope.isWellAnnotated_unstamped :
    (t : Telescope) → t.unstamped.isWellAnnotated = t.isWellAnnotated
  | .nil => rfl
  | .cons _ type _ rest => by
    simp only [Telescope.unstamped, Telescope.isWellAnnotated, type.isWellAnnotated_unstamped,
      rest.isWellAnnotated_unstamped]

theorem Core.isWellAnnotatedMembers_unstampedMembers : (ts : List Core) →
    Core.isWellAnnotatedMembers (Core.unstampedMembers ts) = Core.isWellAnnotatedMembers ts
  | [] => rfl
  | m :: ms => by
    simp only [Core.unstampedMembers, Core.isWellAnnotatedMembers, m.isWellAnnotated_unstamped,
      Core.isWellAnnotatedMembers_unstampedMembers ms]

end

@[simp]
theorem Core.isWellAnnotated_assignStamps (t : Core) (next : Nat) :
    (t.assignStamps next).1.isWellAnnotated = t.isWellAnnotated := by
  rw [← Core.isWellAnnotated_unstamped, t.unstamped_assignStamps, Core.isWellAnnotated_unstamped]

/-! ### Substitution -/

/-- The substituted terms are well annotated. -/
def Substitution.WellAnnotated (σ : Substitution) : Prop :=
  ∀ entry ∈ σ, entry.2.isWellAnnotated = true

namespace Substitution.WellAnnotated

variable {σ : Substitution}

theorem nil : WellAnnotated [] := by simp [WellAnnotated]

theorem without (h : σ.WellAnnotated) (name : String) : (σ.without name).WellAnnotated :=
  fun entry hentry ↦ h entry (List.mem_filter.mp hentry).1

theorem insert (h : σ.WellAnnotated) (name : String) {t : Core} (ht : t.isWellAnnotated = true) :
    (σ.insert name t).WellAnnotated := by
  intro entry hentry
  rcases List.mem_append.mp hentry with hentry | hentry
  · exact h.without name entry hentry
  · rw [List.mem_singleton.mp hentry]
    exact ht

theorem single (name : String) {t : Core} (ht : t.isWellAnnotated = true) :
    (Substitution.single name t).WellAnnotated :=
  nil.insert name ht

theorem enter (h : σ.WellAnnotated) (name : String) (body : Core) :
    (σ.enter name body).2.WellAnnotated := by
  rcases Substitution.enter_cases σ name body with ⟨hcase, -⟩ | ⟨fresh, hcase, -⟩
  · rw [hcase]
    exact h.without name
  · rw [hcase]
    exact (h.without name).insert name rfl

theorem image (h : σ.WellAnnotated) (x : String) :
    (Substitution.image σ x).isWellAnnotated = true := by
  unfold Substitution.image
  cases hget : Substitution.get? σ x with
  | none => rfl
  | some t => exact h _ (Substitution.mem_of_get? hget)

end Substitution.WellAnnotated

theorem Core.isFunctionType_subst {t : Core} (h : t.isFunctionType = true) (σ : Substitution) :
    (t.subst σ).isFunctionType = true := by
  cases t with
  | quant polarity rank domain name codomain =>
    unfold Core.subst
    split
    · exact h
    · cases polarity with
      | universal => rfl
      | existential => simp [Core.isFunctionType] at h
  | _ => simp [Core.isFunctionType] at h

theorem Telescope.length_subst : (t : Telescope) → (σ : Substitution) →
    (t.subst σ).length = t.length
  | .nil, _ => rfl
  | .cons _ _ _ rest, _ => congrArg (· + 1) (rest.length_subst _)

theorem Core.declaresMember_subst {t : Core} {index : Nat} (h : t.declaresMember index = true)
    (σ : Substitution) : (t.subst σ).declaresMember index = true := by
  cases t with
  | signature members =>
    unfold Core.subst
    split
    · exact h
    · simpa only [Core.declaresMember, members.length_subst] using h
  | _ => simp [Core.declaresMember] at h

mutual

theorem Core.isWellAnnotated_subst : (t : Core) → t.isWellAnnotated = true →
    (σ : Substitution) → σ.WellAnnotated → (t.subst σ).isWellAnnotated = true
  | t, h, [], _ => by rwa [Core.subst_nil]
  | .univ _, _, _ :: _, _ => rfl
  | .const _, h, _ :: _, _ => h
  | .var name, _, entry :: σ, hσ => by
    rw [Core.subst_var]
    exact hσ.image name
  | .quant _ _ domain name codomain, h, entry :: σ, hσ => by
    simp only [Core.isWellAnnotated, Bool.and_eq_true] at h
    simp only [Core.subst, List.isEmpty_cons, Bool.false_eq_true, ↓reduceIte,
      Core.isWellAnnotated, Bool.and_eq_true]
    exact ⟨domain.isWellAnnotated_subst h.1 _ hσ,
      codomain.isWellAnnotated_subst h.2 _ (hσ.enter name codomain)⟩
  | .signature members, h, entry :: σ, hσ => members.isWellAnnotated_subst h _ hσ
  | .lam param _ body, h, entry :: σ, hσ =>
    body.isWellAnnotated_subst h _ (hσ.enter param body)
  | .record members, h, entry :: σ, hσ => Core.isWellAnnotatedMembers_subst members h _ hσ
  | .app _ type operator operand, h, entry :: σ, hσ => by
    simp only [Core.isWellAnnotated, Bool.and_eq_true] at h
    obtain ⟨⟨⟨hfunction, htype⟩, hoperator⟩, hoperand⟩ := h
    simp only [Core.subst, List.isEmpty_cons, Bool.false_eq_true, ↓reduceIte,
      Core.isWellAnnotated, Bool.and_eq_true]
    exact ⟨⟨⟨Core.isFunctionType_subst hfunction _, type.isWellAnnotated_subst htype _ hσ⟩,
      operator.isWellAnnotated_subst hoperator _ hσ⟩, operand.isWellAnnotated_subst hoperand _ hσ⟩
  | .proj _ type operator _, h, entry :: σ, hσ => by
    simp only [Core.isWellAnnotated, Bool.and_eq_true] at h
    obtain ⟨⟨hmember, htype⟩, hoperator⟩ := h
    simp only [Core.subst, List.isEmpty_cons, Bool.false_eq_true, ↓reduceIte,
      Core.isWellAnnotated, Bool.and_eq_true]
    exact ⟨⟨Core.declaresMember_subst hmember _, type.isWellAnnotated_subst htype _ hσ⟩,
      operator.isWellAnnotated_subst hoperator _ hσ⟩

theorem Telescope.isWellAnnotated_subst : (t : Telescope) → t.isWellAnnotated = true →
    (σ : Substitution) → σ.WellAnnotated → (t.subst σ).isWellAnnotated = true
  | .nil, _, _, _ => rfl
  | .cons _ type name rest, h, σ, hσ => by
    simp only [Telescope.isWellAnnotated, Bool.and_eq_true] at h
    simp only [Telescope.subst, Telescope.isWellAnnotated, Bool.and_eq_true]
    exact ⟨type.isWellAnnotated_subst h.1 σ hσ,
      rest.isWellAnnotated_subst h.2 _ (hσ.without name)⟩

theorem Core.isWellAnnotatedMembers_subst : (ts : List Core) →
    Core.isWellAnnotatedMembers ts = true → (σ : Substitution) → σ.WellAnnotated →
      Core.isWellAnnotatedMembers (Core.substMembers σ ts) = true
  | [], _, _, _ => rfl
  | m :: ms, h, σ, hσ => by
    simp only [Core.isWellAnnotatedMembers, Bool.and_eq_true] at h
    simp only [Core.substMembers, Core.isWellAnnotatedMembers, Bool.and_eq_true]
    exact ⟨m.isWellAnnotated_subst h.1 σ hσ, Core.isWellAnnotatedMembers_subst ms h.2 σ hσ⟩

end

theorem Core.isWellAnnotated_reduct {param : String} {stamp : Stamp} {body operand : Core}
    (h : (Core.lam param stamp body).isWellAnnotated = true)
    (hoperand : operand.isWellAnnotated = true) :
    (body.subst (.single param operand)).isWellAnnotated = true :=
  body.isWellAnnotated_subst h _ (.single param hoperand)

/-! ### Normalization -/

/-- What stands for the names in scope is well annotated. -/
def NormEnv.WellAnnotated (env : NormEnv) : Prop :=
  ∀ x, (NormEnv.image env x).isWellAnnotated = true

namespace NormEnv.WellAnnotated

variable {env : NormEnv}

theorem nil : NormEnv.WellAnnotated [] := fun _ ↦ rfl

/-- An environment of well annotated terms. -/
theorem of_entries (h : ∀ entry ∈ env, entry.2.isWellAnnotated = true) : env.WellAnnotated := by
  intro x
  unfold NormEnv.image
  cases hget : Env.get? env x with
  | none => rfl
  | some t =>
    obtain ⟨before, after, henv, -⟩ := List.lookup_eq_some_iff.mp hget
    exact h (x, t) (by rw [henv]; simp)

theorem push (h : env.WellAnnotated) (name y : String) :
    NormEnv.WellAnnotated (Env.push env name (.var y)) :=
  fun x ↦ NormEnv.holds_image_push (fun _ ↦ rfl) (h x) name y

theorem bind (h : env.WellAnnotated) (name : String) (c : Nat) :
    NormEnv.WellAnnotated (NormEnv.bind env name c).1.2 :=
  fun x ↦ NormEnv.holds_image_bind (fun _ ↦ rfl) (h x) name c

end NormEnv.WellAnnotated

theorem Core.Normalizes.isFunctionType {env : NormEnv} {t n : Core} {c c' : Nat}
    (h : t.Normalizes env c n c') (ht : t.isFunctionType = true) : n.isFunctionType = true := by
  cases h with
  | @quant _ polarity =>
    cases polarity with
    | universal => rfl
    | existential => simp [Core.isFunctionType] at ht
  | _ => simp [Core.isFunctionType] at ht

theorem Telescope.Normalizes.length_eq {env : NormEnv} {t n : Telescope} {c c' : Nat} :
    t.Normalizes env c n c' → n.length = t.length
  | .nil => rfl
  | .cons _ hrest => congrArg (· + 1) hrest.length_eq

theorem Core.Normalizes.declaresMember {env : NormEnv} {t n : Core} {c c' index : Nat}
    (h : t.Normalizes env c n c') (ht : t.declaresMember index = true) :
    n.declaresMember index = true := by
  cases h with
  | signature hmembers => simpa only [Core.declaresMember, hmembers.length_eq] using ht
  | _ => simp [Core.declaresMember] at ht

theorem Core.isWellAnnotatedMembers_iff {members : List Core} :
    Core.isWellAnnotatedMembers members = true ↔ ∀ m ∈ members, m.isWellAnnotated = true := by
  induction members with
  | nil => simp [Core.isWellAnnotatedMembers]
  | cons m ms ih => simp [Core.isWellAnnotatedMembers, ih]

mutual

theorem Core.Normalizes.isWellAnnotated {env : NormEnv} {t n : Core} {c c' : Nat} :
    t.Normalizes env c n c' → env.WellAnnotated → t.isWellAnnotated = true →
      n.isWellAnnotated = true
  | .univ, _, _ => rfl
  | .const, _, ht => ht
  | .var, henv, _ => henv _
  | .quant hdomain hcodomain, henv, ht => by
    simp only [Core.isWellAnnotated, Bool.and_eq_true] at ht ⊢
    exact ⟨hdomain.isWellAnnotated henv ht.1, hcodomain.isWellAnnotated (henv.bind _ _) ht.2⟩
  | .signature hmembers, henv, ht => hmembers.isWellAnnotated henv ht
  | .lam hbody, henv, ht => hbody.isWellAnnotated (henv.bind _ _) ht
  | .record hmembers, henv, ht => hmembers.isWellAnnotated henv ht
  | .beta hoperator hoperand hresult, henv, ht => by
    simp only [Core.isWellAnnotated, Bool.and_eq_true] at ht
    have hfunction := hoperator.isWellAnnotated henv ht.1.2
    exact hresult.isWellAnnotated .nil
      (Core.isWellAnnotated_reduct hfunction (hoperand.isWellAnnotated henv ht.2))
  | .app hoperator _ hoperand htype, henv, ht => by
    simp only [Core.isWellAnnotated, Bool.and_eq_true] at ht ⊢
    obtain ⟨⟨⟨hfunction, ht⟩, ho⟩, ha⟩ := ht
    exact ⟨⟨⟨htype.isFunctionType hfunction, htype.isWellAnnotated henv ht⟩,
      hoperator.isWellAnnotated henv ho⟩, hoperand.isWellAnnotated henv ha⟩
  | .select hoperator hmember, henv, ht => by
    simp only [Core.isWellAnnotated, Bool.and_eq_true] at ht
    have hmembers := hoperator.isWellAnnotated henv ht.2
    exact Core.isWellAnnotatedMembers_iff.mp hmembers _ (List.mem_of_getElem? hmember)
  | .proj hoperator _ htype, henv, ht => by
    simp only [Core.isWellAnnotated, Bool.and_eq_true] at ht ⊢
    obtain ⟨⟨hmember, ht⟩, ho⟩ := ht
    exact ⟨⟨htype.declaresMember hmember, htype.isWellAnnotated henv ht⟩,
      hoperator.isWellAnnotated henv ho⟩

theorem Telescope.Normalizes.isWellAnnotated {env : NormEnv} {t n : Telescope} {c c' : Nat} :
    t.Normalizes env c n c' → env.WellAnnotated → t.isWellAnnotated = true →
      n.isWellAnnotated = true
  | .nil, _, _ => rfl
  | .cons htype hrest, henv, ht => by
    simp only [Telescope.isWellAnnotated, Bool.and_eq_true] at ht ⊢
    exact ⟨htype.isWellAnnotated henv ht.1, hrest.isWellAnnotated (henv.push _ _) ht.2⟩

theorem Core.NormalizesMembers.isWellAnnotated {env : NormEnv} {ts ns : List Core} {c c' : Nat} :
    Core.NormalizesMembers env ts c ns c' → env.WellAnnotated →
      Core.isWellAnnotatedMembers ts = true → Core.isWellAnnotatedMembers ns = true
  | .nil, _, _ => rfl
  | .cons hhead htail, henv, ht => by
    simp only [Core.isWellAnnotatedMembers, Bool.and_eq_true] at ht ⊢
    exact ⟨hhead.isWellAnnotated henv ht.1, htail.isWellAnnotated henv ht.2⟩

end

end RankedTT
