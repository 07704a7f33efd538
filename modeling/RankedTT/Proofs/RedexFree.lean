import RankedTT.Proofs.Convertibility

/-!
Terms without redexes. A redex is an application whose operator is a lambda, or a projection whose
operator is a record; a projection from a record that has too few members counts as well, since the
normalizer fails at one. If the values of the names in scope have no redex, neither has a normal
form. Conversely, normalizing a term without redexes whose free names stand for themselves leaves
its head as it is.
-/

set_option autoImplicit false
set_option relaxedAutoImplicit false

namespace RankedTT

def Core.isRecord : Core → Bool
  | .record _ => true
  | _ => false

mutual

/-- Whether a term has no redex at any depth, types recorded on operators included. -/
def Core.isRedexFree : Core → Bool
  | .univ _ | .var _ | .const _ => true
  | .quant _ _ domain _ codomain => domain.isRedexFree && codomain.isRedexFree
  | .signature members => members.isRedexFree
  | .lam _ _ body => body.isRedexFree
  | .record members => Core.isRedexFreeMembers members
  | .app _ type operator operand =>
    type.isRedexFree && operator.isRedexFree && operand.isRedexFree && !operator.isLambda
  | .proj _ type operator _ =>
    type.isRedexFree && operator.isRedexFree && !operator.isRecord

def Telescope.isRedexFree : Telescope → Bool
  | .nil => true
  | .cons _ type _ rest => type.isRedexFree && rest.isRedexFree

def Core.isRedexFreeMembers : List Core → Bool
  | [] => true
  | m :: ms => m.isRedexFree && Core.isRedexFreeMembers ms

end

theorem Core.isRecord_eq_false {t : Core} (h : ∀ members, t ≠ .record members) :
    t.isRecord = false := by
  cases t with
  | record members => exact absurd rfl (h members)
  | _ => rfl

/-! ### Stamps -/

theorem Core.isLambda_unstamped (t : Core) : t.unstamped.isLambda = t.isLambda := by
  cases t <;> rfl

theorem Core.isRecord_unstamped (t : Core) : t.unstamped.isRecord = t.isRecord := by
  cases t <;> rfl

mutual

theorem Core.isRedexFree_unstamped : (t : Core) → t.unstamped.isRedexFree = t.isRedexFree
  | .univ _ | .var _ | .const _ => rfl
  | .quant _ _ domain _ codomain => by
    simp only [Core.unstamped, Core.isRedexFree, domain.isRedexFree_unstamped,
      codomain.isRedexFree_unstamped]
  | .signature members => members.isRedexFree_unstamped
  | .lam _ _ body => body.isRedexFree_unstamped
  | .record members => Core.isRedexFreeMembers_unstampedMembers members
  | .app _ type operator operand => by
    simp only [Core.unstamped, Core.isRedexFree, type.isRedexFree_unstamped,
      operator.isRedexFree_unstamped, operand.isRedexFree_unstamped,
      operator.isLambda_unstamped]
  | .proj _ type operator _ => by
    simp only [Core.unstamped, Core.isRedexFree, type.isRedexFree_unstamped,
      operator.isRedexFree_unstamped, operator.isRecord_unstamped]

theorem Telescope.isRedexFree_unstamped :
    (t : Telescope) → t.unstamped.isRedexFree = t.isRedexFree
  | .nil => rfl
  | .cons _ type _ rest => by
    simp only [Telescope.unstamped, Telescope.isRedexFree, type.isRedexFree_unstamped,
      rest.isRedexFree_unstamped]

theorem Core.isRedexFreeMembers_unstampedMembers : (ts : List Core) →
    Core.isRedexFreeMembers (Core.unstampedMembers ts) = Core.isRedexFreeMembers ts
  | [] => rfl
  | m :: ms => by
    simp only [Core.unstampedMembers, Core.isRedexFreeMembers, m.isRedexFree_unstamped,
      Core.isRedexFreeMembers_unstampedMembers ms]

end

@[simp]
theorem Core.isRedexFree_assignStamps (t : Core) (next : Nat) :
    (t.assignStamps next).1.isRedexFree = t.isRedexFree := by
  rw [← Core.isRedexFree_unstamped, t.unstamped_assignStamps, Core.isRedexFree_unstamped]

/-! ### Normal forms -/

/-- What stands for the variables among some names has no redex. -/
def NormEnv.RedexFreeOn (env : NormEnv) (names : List (NameRole × String)) : Prop :=
  ∀ x, (.reference, x) ∈ names → (NormEnv.image env x).isRedexFree = true

namespace NormEnv.RedexFreeOn

variable {env : NormEnv} {names names' : List (NameRole × String)}

theorem nil : NormEnv.RedexFreeOn [] names := fun _ _ ↦ rfl

theorem subset (h : env.RedexFreeOn names) (hsubset : names' ⊆ names) : env.RedexFreeOn names' :=
  fun x hx ↦ h x (hsubset hx)

theorem bind (h : env.RedexFreeOn names) (hsubset : names' ⊆ names) (name : String) (c : Nat) :
    NormEnv.RedexFreeOn (NormEnv.bind env name c).1.2 names' :=
  fun x hx ↦ NormEnv.holds_image_bind (fun _ ↦ rfl) (h x (hsubset hx)) name c

theorem push (h : env.RedexFreeOn names) (hsubset : names' ⊆ names) (name y : String) :
    NormEnv.RedexFreeOn (Env.push env name (.var y)) names' :=
  fun x hx ↦ NormEnv.holds_image_push (fun _ ↦ rfl) (h x (hsubset hx)) name y

end NormEnv.RedexFreeOn

theorem Core.isRedexFreeMembers_iff {members : List Core} :
    Core.isRedexFreeMembers members = true ↔ ∀ m ∈ members, m.isRedexFree = true := by
  induction members with
  | nil => simp [Core.isRedexFreeMembers]
  | cons m ms ih => simp [Core.isRedexFreeMembers, ih]

mutual

theorem Core.Normalizes.isRedexFree {env : NormEnv} {t n : Core} {c c' : Nat} :
    t.Normalizes env c n c' → env.RedexFreeOn t.names → n.isRedexFree = true
  | .univ, _ | .const, _ => rfl
  | .var, henv => henv _ (by simp [Core.names])
  | .quant hdomain hcodomain, henv => by
    simp only [Core.isRedexFree, Bool.and_eq_true]
    exact ⟨hdomain.isRedexFree (henv.subset (by simp [Core.names])),
      hcodomain.isRedexFree (henv.bind (by simp [Core.names]) _ _)⟩
  | .signature hmembers, henv => hmembers.isRedexFree henv
  | .lam hbody, henv => hbody.isRedexFree (henv.bind (by simp [Core.names]) _ _)
  | .record hmembers, henv => hmembers.isRedexFree henv
  | .beta _ _ hresult, _ => hresult.isRedexFree .nil
  | .app hoperator hstuck hoperand htype, henv => by
    simp only [Core.isRedexFree, Bool.and_eq_true, Bool.not_eq_true']
    exact ⟨⟨⟨htype.isRedexFree (henv.subset (by simp [Core.names])),
      hoperator.isRedexFree (henv.subset (by simp [Core.names]))⟩,
      hoperand.isRedexFree (henv.subset (by simp [Core.names]))⟩,
      Core.isLambda_eq_false hstuck⟩
  | .select hoperator hmember, henv => by
    have hmembers := hoperator.isRedexFree (henv.subset (by simp [Core.names]))
    exact Core.isRedexFreeMembers_iff.mp hmembers _ (List.mem_of_getElem? hmember)
  | .proj hoperator hstuck htype, henv => by
    simp only [Core.isRedexFree, Bool.and_eq_true, Bool.not_eq_true']
    exact ⟨⟨htype.isRedexFree (henv.subset (by simp [Core.names])),
      hoperator.isRedexFree (henv.subset (by simp [Core.names]))⟩,
      Core.isRecord_eq_false hstuck⟩

theorem Telescope.Normalizes.isRedexFree {env : NormEnv} {t n : Telescope} {c c' : Nat} :
    t.Normalizes env c n c' → env.RedexFreeOn t.names → n.isRedexFree = true
  | .nil, _ => rfl
  | .cons htype hrest, henv => by
    simp only [Telescope.isRedexFree, Bool.and_eq_true]
    exact ⟨htype.isRedexFree (henv.subset (by simp [Telescope.names])),
      hrest.isRedexFree (henv.push (by simp [Telescope.names]) _ _)⟩

theorem Core.NormalizesMembers.isRedexFree {env : NormEnv} {ts ns : List Core} {c c' : Nat} :
    Core.NormalizesMembers env ts c ns c' → env.RedexFreeOn (Core.namesMembers ts) →
      Core.isRedexFreeMembers ns = true
  | .nil, _ => rfl
  | .cons hhead htail, henv => by
    simp only [Core.isRedexFreeMembers, Bool.and_eq_true]
    exact ⟨hhead.isRedexFree (henv.subset (by simp [Core.namesMembers])),
      htail.isRedexFree (henv.subset (by simp [Core.namesMembers]))⟩

end

/-! ### Heads -/

/-- The two terms have the same head: the same constructor, and the same rank, polarity, index, name
or value. -/
inductive Core.SameHead : Core → Core → Prop
  | univ (rank : Nat) : Core.SameHead (.univ rank) (.univ rank)
  | quant (polarity : Polarity) (rank : Nat) {domain domain' codomain codomain' : Core}
      {name name' : String} :
      Core.SameHead (.quant polarity rank domain name codomain)
        (.quant polarity rank domain' name' codomain')
  | signature {members members' : Telescope} :
      Core.SameHead (.signature members) (.signature members')
  | lam {param param' : String} {stamp stamp' : Stamp} {body body' : Core} :
      Core.SameHead (.lam param stamp body) (.lam param' stamp' body')
  | record {members members' : List Core} : Core.SameHead (.record members) (.record members')
  | app (rank : Nat) {type type' operator operator' operand operand' : Core} :
      Core.SameHead (.app rank type operator operand) (.app rank type' operator' operand')
  | proj (rank index : Nat) {type type' operator operator' : Core} :
      Core.SameHead (.proj rank type operator index) (.proj rank type' operator' index)
  | var (name : String) : Core.SameHead (.var name) (.var name)
  | const (value : Value) : Core.SameHead (.const value) (.const value)

/-- If no free name stands for something else, the operator of an application or a projection cannot
become a lambda or a record, so nothing is contracted at the head. -/
theorem Core.Normalizes.sameHead {env : NormEnv} {t n : Core} {c c' : Nat}
    (h : t.Normalizes env c n c') (ht : t.isRedexFree = true)
    (hself : ∀ x ∈ t.freeNames, NormEnv.image env x = .var x) : t.SameHead n := by
  cases t with
  | app rank type operator operand =>
    cases h with
    | beta hoperator =>
      simp only [Core.isRedexFree, Bool.and_eq_true, Bool.not_eq_true'] at ht
      have hhead := hoperator.sameHead ht.1.1.2 fun x hx ↦ hself x (by simp [Core.freeNames, hx])
      cases hhead
      simp [Core.isLambda] at ht
    | app => exact .app _
  | proj rank type operator index =>
    cases h with
    | select hoperator =>
      simp only [Core.isRedexFree, Bool.and_eq_true, Bool.not_eq_true'] at ht
      have hhead := hoperator.sameHead ht.1.2 fun x hx ↦ hself x (by simp [Core.freeNames, hx])
      cases hhead
      simp [Core.isRecord] at ht
    | proj => exact .proj _ _
  | var name =>
    cases h
    rw [hself name (List.mem_singleton_self name)]
    exact .var name
  | _ =>
    cases h
    constructor

end RankedTT
