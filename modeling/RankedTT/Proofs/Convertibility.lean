import RankedTT.Conversion
import RankedTT.Proofs.Hygiene

/-!
Definitional equality decides convertibility. The normalizer reduces a term, after the names in
scope are replaced by their values, to a term in which nothing can be contracted; reduction is
confluent, so two terms are convertible exactly if their normal forms agree up to the names of
binders.
-/

set_option autoImplicit false
set_option relaxedAutoImplicit false

namespace RankedTT

open Nameless

/-! ### Normal forms -/

def Core.isLambda : Core → Bool
  | .lam .. => true
  | _ => false

/-- Whether the term is a record with a member at the position. -/
def Core.hasMember (index : Nat) : Core → Bool
  | .record members => index < members.length
  | _ => false

mutual

/-- Whether a term has no redex, types recorded on operators included. -/
def Core.isNormal : Core → Bool
  | .univ _ | .var _ | .const _ => true
  | .quant _ _ domain _ codomain => domain.isNormal && codomain.isNormal
  | .signature members => members.isNormal
  | .lam _ _ body => body.isNormal
  | .record members => Core.isNormalMembers members
  | .app _ type operator operand =>
    type.isNormal && operator.isNormal && operand.isNormal && !operator.isLambda
  | .proj _ type operator index =>
    type.isNormal && operator.isNormal && !operator.hasMember index

def Telescope.isNormal : Telescope → Bool
  | .nil => true
  | .cons _ type _ rest => type.isNormal && rest.isNormal

def Core.isNormalMembers : List Core → Bool
  | [] => true
  | m :: ms => m.isNormal && Core.isNormalMembers ms

end

theorem Core.isNormalMembers_iff {members : List Core} :
    Core.isNormalMembers members = true ↔ ∀ m ∈ members, m.isNormal = true := by
  induction members with
  | nil => simp [Core.isNormalMembers]
  | cons m ms ih => simp [Core.isNormalMembers, ih]

theorem Core.isLambda_eq_false {t : Core} (h : ∀ param stamp body, t ≠ .lam param stamp body) :
    t.isLambda = false := by
  cases t with
  | lam param stamp body => exact absurd rfl (h param stamp body)
  | _ => rfl

theorem Core.hasMember_eq_false {t : Core} (h : ∀ members, t ≠ .record members) {index : Nat} :
    t.hasMember index = false := by
  cases t with
  | record members => exact absurd rfl (h members)
  | _ => rfl

/-- What stands for the names in scope is normal. -/
def NormEnv.IsNormal (env : NormEnv) : Prop := ∀ x, (NormEnv.image env x).isNormal = true

theorem NormEnv.isNormal_nil : NormEnv.IsNormal [] := fun _ ↦ rfl

theorem NormEnv.IsNormal.push {env : NormEnv} (h : env.IsNormal) (name y : String) :
    NormEnv.IsNormal (Env.push env name (.var y)) :=
  fun x ↦ NormEnv.holds_image_push (fun _ ↦ rfl) (h x) name y

theorem NormEnv.IsNormal.bind {env : NormEnv} (h : env.IsNormal) (name : String) (c : Nat) :
    NormEnv.IsNormal (NormEnv.bind env name c).1.2 :=
  fun x ↦ NormEnv.holds_image_bind (fun _ ↦ rfl) (h x) name c

mutual

theorem Core.Normalizes.isNormal {env : NormEnv} {t n : Core} {c c' : Nat} :
    t.Normalizes env c n c' → env.IsNormal → n.isNormal = true
  | .univ, _ | .const, _ => rfl
  | .var, henv => henv _
  | .quant hdomain hcodomain, henv => by
    simp [Core.isNormal, hdomain.isNormal henv, hcodomain.isNormal (henv.bind _ _)]
  | .signature hmembers, henv => hmembers.isNormal henv
  | .lam hbody, henv => hbody.isNormal (henv.bind _ _)
  | .record hmembers, henv => hmembers.isNormal henv
  | .beta _ _ hresult, _ => hresult.isNormal NormEnv.isNormal_nil
  | .app hoperator hstuck hoperand htype, henv => by
    simp [Core.isNormal, htype.isNormal henv, hoperator.isNormal henv, hoperand.isNormal henv,
      Core.isLambda_eq_false hstuck]
  | .select hoperator hmember, henv =>
    Core.isNormalMembers_iff.mp (hoperator.isNormal henv) _ (List.mem_of_getElem? hmember)
  | .proj hoperator hstuck htype, henv => by
    simp [Core.isNormal, htype.isNormal henv, hoperator.isNormal henv,
      Core.hasMember_eq_false hstuck]

theorem Telescope.Normalizes.isNormal {env : NormEnv} {t n : Telescope} {c c' : Nat} :
    t.Normalizes env c n c' → env.IsNormal → n.isNormal = true
  | .nil, _ => rfl
  | .cons htype hrest, henv => by
    simp [Telescope.isNormal, htype.isNormal henv, hrest.isNormal (henv.push _ _)]

theorem Core.NormalizesMembers.isNormal {env : NormEnv} {ts ns : List Core} {c c' : Nat} :
    Core.NormalizesMembers env ts c ns c' → env.IsNormal → Core.isNormalMembers ns = true
  | .nil, _ => rfl
  | .cons hhead htail, henv => by
    simp [Core.isNormalMembers, hhead.isNormal henv, htail.isNormal henv]

end

theorem Core.isLambda_of_nameless {t : Core} {scope : List String} {body : Nameless}
    (h : t.nameless scope = .lam body) : t.isLambda = true := by
  cases t <;> simp_all [Core.nameless, Core.isLambda]

theorem Core.nth_namelessMembers_isSome {members : List Core} {scope : List String} {index : Nat}
    {m : Nameless} (h : (Core.namelessMembers scope members).nth index = some m) :
    index < members.length := by
  induction members generalizing index with
  | nil => simp [Core.namelessMembers, Nameless.nth] at h
  | cons _ ms ih =>
    cases index with
    | zero => simp
    | succ index => simpa using ih h

theorem Core.hasMember_of_nameless {t : Core} {scope : List String} {members m : Nameless}
    {index : Nat} (h : t.nameless scope = .record members) (hm : members.nth index = some m) :
    t.hasMember index = true := by
  cases t with
  | record ms =>
    obtain rfl : Core.namelessMembers scope ms = members := by simpa [Core.nameless] using h
    simpa [Core.hasMember] using Core.nth_namelessMembers_isSome hm
  | _ => simp [Core.nameless] at h

mutual

/-- Nothing can be contracted in a normal term. -/
theorem Core.irreducible_nameless : (t : Core) → t.isNormal = true → (scope : List String) →
    Irreducible (t.nameless scope)
  | .univ _, _, _, u, hu | .var _, _, _, u, hu | .const _, _, _, u, hu => by
    cases hu
    rfl
  | .quant _ _ domain _ codomain, h, scope, u, hu => by
    simp only [Core.isNormal, Bool.and_eq_true] at h
    cases hu with
    | quant _ _ hdomain hcodomain =>
      rw [domain.irreducible_nameless h.1 _ _ hdomain,
        codomain.irreducible_nameless h.2 _ _ hcodomain]
      rfl
  | .signature members, h, scope, u, hu => by
    cases hu with
    | signature hu => rw [members.irreducible_nameless h _ _ hu]; rfl
  | .lam _ _ body, h, scope, u, hu => by
    cases hu with
    | lam hu => rw [body.irreducible_nameless h _ _ hu]; rfl
  | .record members, h, scope, u, hu => by
    cases hu with
    | record hu => rw [Core.irreducible_namelessMembers members h _ _ hu]; rfl
  | .app _ type operator operand, h, scope, u, hu => by
    simp only [Core.isNormal, Bool.and_eq_true, Bool.not_eq_true'] at h
    obtain ⟨⟨⟨htype, hoperator⟩, hoperand⟩, hlambda⟩ := h
    rcases hu.app_cases with ⟨_, _, _, rfl, ht, ho, ha⟩ | ⟨body, hbody⟩
    · rw [type.irreducible_nameless htype _ _ ht, operator.irreducible_nameless hoperator _ _ ho,
        operand.irreducible_nameless hoperand _ _ ha]
      rfl
    · rw [Core.isLambda_of_nameless hbody] at hlambda
      simp at hlambda
  | .proj _ type operator _, h, scope, u, hu => by
    simp only [Core.isNormal, Bool.and_eq_true, Bool.not_eq_true'] at h
    obtain ⟨⟨htype, hoperator⟩, hmember⟩ := h
    have ho := operator.irreducible_nameless hoperator scope
    rcases hu.proj_cases with ⟨_, _, rfl, ht, ho'⟩ | ⟨members, members', hrecord, hms, hm⟩
    · rw [type.irreducible_nameless htype _ _ ht, ho _ ho']
      rfl
    · have hsame := ho (.record members') (hrecord ▸ .record hms)
      rw [Core.hasMember_of_nameless hsame.symm hm] at hmember
      simp at hmember

theorem Telescope.irreducible_nameless : (t : Telescope) → t.isNormal = true →
    (scope : List String) → Irreducible (t.nameless scope)
  | .nil, _, _, u, hu => by
    cases hu
    rfl
  | .cons _ type _ rest, h, scope, u, hu => by
    simp only [Telescope.isNormal, Bool.and_eq_true] at h
    cases hu with
    | declare _ _ htype hrest =>
      rw [type.irreducible_nameless h.1 _ _ htype, rest.irreducible_nameless h.2 _ _ hrest]
      rfl

theorem Core.irreducible_namelessMembers : (ts : List Core) → Core.isNormalMembers ts = true →
    (scope : List String) → Irreducible (Core.namelessMembers scope ts)
  | [], _, _, u, hu => by
    cases hu
    rfl
  | m :: ms, h, scope, u, hu => by
    simp only [Core.isNormalMembers, Bool.and_eq_true] at h
    cases hu with
    | cons hhead htail =>
      rw [m.irreducible_nameless h.1 _ _ hhead, Core.irreducible_namelessMembers ms h.2 _ _ htail]
      rfl

end

/-! ### Convertibility in scope -/

/-- Convertible after the names in scope are replaced by their values, up to the names of binders.
-/
def Core.ConvertibleIn (env : NormEnv) (s t : Core) : Prop :=
  Conv ((s.subst env).nameless []) ((t.subst env).nameless [])

/-- No record member has a name in the term, no variable is anonymous, and no name is one that the
normalizer generates. -/
structure Core.Plain (t : Core) : Prop where
  unlabelled : ∀ x, (.label, x) ∉ t.names
  named : (.reference, anonymous) ∉ t.names
  original : ∀ r k, (r, generatedName k) ∉ t.names

/-- A test for plain terms: generated names are those that begin with an underscore. -/
theorem Core.Plain.of_names {t : Core}
    (h : ∀ entry ∈ t.names, entry.1 ≠ .label ∧ entry ≠ (.reference, anonymous) ∧
      entry.2.toList.head? ≠ some '_') : t.Plain where
  unlabelled _ hx := (h _ hx).1 rfl
  named hx := (h _ hx).2.1 rfl
  original _ k hk := (h _ hk).2.2 (head?_generatedName k)

theorem Core.Plain.tame {t : Core} (h : t.Plain) (c : Nat) : t.Tame (fun _ ↦ False) c := by
  refine ⟨⟨h.named, fun r k hk ↦ absurd hk (h.original r k)⟩, fun r x hx ↦ ?_⟩
  rw [iff_false]
  rintro rfl
  exact h.unlabelled x hx

/-- An environment of normal values whose free names are in scope. -/
structure NormEnv.Plain (env : NormEnv) : Prop where
  normal : ∀ x value, (x, value) ∈ env → value.isNormal = true
  inScope : ∀ x value, (x, value) ∈ env → ∀ y, value.occursFree y = true → Env.maps env y = true
  values : ∀ x value, (x, value) ∈ env → value.Plain

namespace NormEnv.Plain

variable {env : NormEnv}

/-- A test for plain environments. -/
theorem of_names
    (h : ∀ entry ∈ env, entry.2.isNormal = true ∧
      (∀ y ∈ entry.2.freeNames, Env.maps env y = true) ∧
      ∀ name ∈ entry.2.names, name.1 ≠ .label ∧ name ≠ (.reference, anonymous) ∧
        name.2.toList.head? ≠ some '_') : env.Plain where
  normal _ _ hmem := (h _ hmem).1
  inScope _ _ hmem y hy := (h _ hmem).2.1 y ((Core.occursFree_iff_mem y _).mp hy)
  values _ _ hmem := .of_names (h _ hmem).2.2

theorem mem_of_maps {x : String} (h : Env.maps env x = true) : (x, NormEnv.image env x) ∈ env := by
  obtain ⟨value, hvalue⟩ := Option.isSome_iff_exists.mp h
  obtain ⟨before, after, henv, -⟩ := List.lookup_eq_some_iff.mp hvalue
  rw [NormEnv.image, hvalue, henv]
  simp

theorem isNormal (h : env.Plain) : env.IsNormal := by
  intro x
  by_cases hmaps : Env.maps env x = true
  · exact h.normal x _ (mem_of_maps hmaps)
  · rw [NormEnv.image_of_not_maps hmaps]
    rfl

theorem tame (h : env.Plain) (c : Nat) : env.Tame (fun _ ↦ False) c := by
  refine ⟨⟨fun x hx y hy ↦ ?_, fun x hx _ ↦ ?_⟩, fun x hx _ _ ↦ ?_⟩
  · exact h.inScope x _ (mem_of_maps hx) y ((Core.occursFree_iff_mem y _).mpr hy)
  · exact ((h.values x _ (mem_of_maps hx)).tame c).below
  · exact ((h.values x _ (mem_of_maps hx)).tame c).apart

theorem avoidsAnonymous (h : env.Plain) : Substitution.AvoidsAnonymous env := by
  intro x hx hmem
  by_cases hmaps : Env.maps env x = true
  · exact (h.values x _ (mem_of_maps hmaps)).named (Core.mem_names_of_mem_freeNames _ hmem)
  · change anonymous ∈ (NormEnv.image env x).freeNames at hmem
    rw [NormEnv.image_of_not_maps hmaps, Core.freeNames, List.mem_singleton] at hmem
    exact hx hmem.symm

/-- A plain term is normalized without capture. -/
theorem captureFree (h : env.Plain) {t : Core} (ht : t.Plain) : (Call.core env t 0).CaptureFree :=
  Call.Tame.captureFree (by simp [OriginalLabels]) ⟨h.tame 0, ht.tame 0⟩

/-- A term with the values of its names put in reduces to its normal form, which is irreducible. -/
theorem reduces_normalForm (h : env.Plain) {t n : Core} (ht : t.Plain) {fuel : Nat}
    (hn : t.normalForm fuel env = .ok n) :
    Reduces ((t.subst env).nameless []) (n.nameless []) ∧ Irreducible (n.nameless []) := by
  obtain ⟨c, hc⟩ := Core.normalizes_of_normalForm hn
  refine ⟨?_, n.irreducible_nameless (hc.isNormal h.isNormal) []⟩
  have hsubst : (t.subst env).nameless [] = t.meaning (named (NormEnv.image env)) :=
    Core.subst_isInstanceOf h.avoidsAnonymous fun l hl ↦ absurd hl (ht.unlabelled l)
  rw [hsubst]
  exact Core.reduces_normalForm hn (h.captureFree ht)

/-- Comparing normal forms decides convertibility. -/
theorem alphaEq_normalForm_iff (h : env.Plain) {s t m n : Core} (hs : s.Plain) (ht : t.Plain)
    {fuel : Nat} (hm : s.normalForm fuel env = .ok m) (hn : t.normalForm fuel env = .ok n) :
    m.alphaEq n = true ↔ s.ConvertibleIn env t := by
  obtain ⟨hsm, hm⟩ := h.reduces_normalForm hs hm
  obtain ⟨htn, hn⟩ := h.reduces_normalForm ht hn
  rw [Core.alphaEq_iff]
  exact (conv_iff_of_irreducible hsm htn hm hn).symm

end NormEnv.Plain

/-- Whenever definitional equality gives an answer, it is that of convertibility. -/
theorem Classified.isEqualTo_iff {fuel : Nat} {env : NormEnv} {lhs rhs : Classified Core} {b : Bool}
    (henv : env.Plain) (hlhs : lhs.type.Plain ∧ lhs.term.Plain)
    (hrhs : rhs.type.Plain ∧ rhs.term.Plain) (h : Classified.isEqualTo fuel env lhs rhs = .ok b) :
    b = true ↔ lhs.rank = rhs.rank ∧ lhs.type.ConvertibleIn env rhs.type ∧
      lhs.term.ConvertibleIn env rhs.term := by
  unfold Classified.isEqualTo at h
  by_cases hrank : lhs.rank = rhs.rank
  · rw [if_neg (by simpa using hrank)] at h
    obtain ⟨lhsType, hlhsType, h⟩ := Run.outcome_bind_eq_ok_iff.mp h
    obtain ⟨rhsType, hrhsType, h⟩ := Run.outcome_bind_eq_ok_iff.mp h
    have htype := henv.alphaEq_normalForm_iff hlhs.1 hrhs.1 hlhsType hrhsType
    by_cases halpha : lhsType.alphaEq rhsType = true
    · rw [if_neg (by simpa using halpha)] at h
      obtain ⟨lhsTerm, hlhsTerm, h⟩ := Run.outcome_bind_eq_ok_iff.mp h
      obtain ⟨rhsTerm, hrhsTerm, h⟩ := Run.outcome_bind_eq_ok_iff.mp h
      have hterm := henv.alphaEq_normalForm_iff hlhs.2 hrhs.2 hlhsTerm hrhsTerm
      injection h with h
      subst h
      simp [hrank, ← htype, ← hterm, halpha]
    · rw [if_pos (by simpa using halpha)] at h
      injection h with h
      subst h
      simp [← htype, halpha]
  · rw [if_pos (by simpa using hrank)] at h
    injection h with h
    subst h
    simp [hrank]

/-- The identity, as a name in scope, applied to a number. -/
theorem Classified.isEqualTo_iff_identity :
    let env : NormEnv := [("id", .lam "x" none (.var "x")), ("int", .var "int")]
    let lhs : Classified Core :=
      ⟨0, .var "int", .app 0 (.univ 0) (.var "id") (.const (.int 3))⟩
    let rhs : Classified Core := ⟨0, .var "int", .const (.int 3)⟩
    lhs.rank = rhs.rank ∧ lhs.type.ConvertibleIn env rhs.type ∧
      lhs.term.ConvertibleIn env rhs.term := by
  intro env lhs rhs
  have hequal : Classified.isEqualTo 9 env lhs rhs = .ok true := rfl
  have henv : NormEnv.Plain env := by
    refine ⟨?_, ?_, ?_⟩
    all_goals
      intro x value hmem
      simp only [env, List.mem_cons, Prod.mk.injEq, List.not_mem_nil, or_false] at hmem
      rcases hmem with ⟨rfl, rfl⟩ | ⟨rfl, rfl⟩
    · rfl
    · rfl
    · simp [Core.occursFree_iff_mem, Core.freeNames]
    · intro y hy
      obtain rfl : y = "int" := by simpa [Core.occursFree_iff_mem, Core.freeNames] using hy
      rfl
    · exact .of_names (by decide)
    · exact .of_names (by decide)
  refine (Classified.isEqualTo_iff henv ⟨?_, ?_⟩ ⟨?_, ?_⟩ hequal).mp rfl
  all_goals exact .of_names (by decide)

end RankedTT
