import RankedTT.Proofs.CaptureFree
import RankedTT.Proofs.Confluence
import RankedTT.Proofs.Meaning

/-!
Normalization without capture. To normalize a term, the normalizer calls itself for the parts of the
term and for the reducts of applied lambdas. A call captures a name if it gives a binder or a label
a name that is free in what stands for another name below it, or if it enters a lambda by a
substitution in which a binder captures something. A normalization none of whose calls captures a
name does nothing but reduce.

No call captures a name if the term is tame: every call that a tame call makes is tame again.
-/

set_option autoImplicit false
set_option relaxedAutoImplicit false

namespace RankedTT

open Nameless Relation

/-! ### Calls -/

/-- What the normalizer is called for, under an environment and with a counter. -/
inductive Call where
  | core (env : NormEnv) (t : Core) (c : Nat)
  | telescope (env : NormEnv) (types : Telescope) (c : Nat)
  | members (env : NormEnv) (members : List Core) (c : Nat)

namespace Call

/-- The direct calls that a call makes. -/
inductive Makes : Call → Call → Prop
  | domain {env : NormEnv} {polarity : Polarity} {rank c : Nat} {domain codomain : Core}
      {name : String} :
      Makes (core env (.quant polarity rank domain name codomain) c) (core env domain c)
  | codomain {env : NormEnv} {polarity : Polarity} {rank c c₁ : Nat}
      {domain domain' codomain : Core} {name : String}
      (hdomain : domain.Normalizes env c domain' c₁) :
      Makes (core env (.quant polarity rank domain name codomain) c)
        (core (NormEnv.bind env name c₁).1.2 codomain (NormEnv.bind env name c₁).2)
  | signature {env : NormEnv} {types : Telescope} {c : Nat} :
      Makes (core env (.signature types) c) (telescope env types c)
  | declared {env : NormEnv} {rank c : Nat} {type : Core} {name : String} {rest : Telescope} :
      Makes (telescope env (.cons rank type name rest) c) (core env type c)
  | rest {env : NormEnv} {rank c c₁ : Nat} {type type' : Core} {name : String} {rest : Telescope}
      (htype : type.Normalizes env c type' c₁) :
      Makes (telescope env (.cons rank type name rest) c)
        (telescope (Env.push env name (.var name)) rest c₁)
  | body {env : NormEnv} {c : Nat} {param : String} {stamp : Stamp} {body : Core} :
      Makes (core env (.lam param stamp body) c)
        (core (NormEnv.bind env param c).1.2 body (NormEnv.bind env param c).2)
  | record {env : NormEnv} {ts : List Core} {c : Nat} :
      Makes (core env (.record ts) c) (members env ts c)
  | head {env : NormEnv} {t : Core} {ts : List Core} {c : Nat} :
      Makes (members env (t :: ts) c) (core env t c)
  | tail {env : NormEnv} {t n : Core} {ts : List Core} {c c₁ : Nat} (ht : t.Normalizes env c n c₁) :
      Makes (members env (t :: ts) c) (members env ts c₁)
  | operator {env : NormEnv} {rank c : Nat} {type operator operand : Core} :
      Makes (core env (.app rank type operator operand) c) (core env operator c)
  | operand {env : NormEnv} {rank c c₁ : Nat} {type operator operator' operand : Core}
      (hoperator : operator.Normalizes env c operator' c₁) :
      Makes (core env (.app rank type operator operand) c) (core env operand c₁)
  | reduct {env : NormEnv} {rank c c₁ c₂ : Nat} {param : String} {stamp : Stamp}
      {type operator operand operand' body : Core}
      (hoperator : operator.Normalizes env c (.lam param stamp body) c₁)
      (hoperand : operand.Normalizes env c₁ operand' c₂) :
      Makes (core env (.app rank type operator operand) c)
        (core [] (body.subst (.single param operand')) c₂)
  | appType {env : NormEnv} {rank c c₁ c₂ : Nat} {type operator operator' operand operand' : Core}
      (hoperator : operator.Normalizes env c operator' c₁)
      (hstuck : ∀ param stamp body, operator' ≠ .lam param stamp body)
      (hoperand : operand.Normalizes env c₁ operand' c₂) :
      Makes (core env (.app rank type operator operand) c) (core env type c₂)
  | projected {env : NormEnv} {rank index c : Nat} {type operator : Core} :
      Makes (core env (.proj rank type operator index) c) (core env operator c)
  | projType {env : NormEnv} {rank index c c₁ : Nat} {type operator operator' : Core}
      (hoperator : operator.Normalizes env c operator' c₁)
      (hstuck : ∀ ts, operator' ≠ .record ts) :
      Makes (core env (.proj rank type operator index) c) (core env type c₁)

/-- A call gives a name to a binder, or enters a lambda, in such a way that a name changes its
meaning. -/
inductive Captures : Call → Prop
  | codomain {env : NormEnv} {polarity : Polarity} {rank c c₁ : Nat}
      {domain domain' codomain : Core} {name x : String}
      (hdomain : domain.Normalizes env c domain' c₁) (hx : x ∈ codomain.freeNames)
      (hname : x ≠ name) (h : (NormEnv.bind env name c₁).1.1 ∈ (NormEnv.image env x).freeNames) :
      Captures (core env (.quant polarity rank domain name codomain) c)
  | body {env : NormEnv} {c : Nat} {param x : String} {stamp : Stamp} {body : Core}
      (hx : x ∈ body.freeNames) (hparam : x ≠ param)
      (h : (NormEnv.bind env param c).1.1 ∈ (NormEnv.image env x).freeNames) :
      Captures (core env (.lam param stamp body) c)
  | label {env : NormEnv} {rank c : Nat} {type : Core} {name x : String} {rest : Telescope}
      (hx : x ∈ rest.freeNames) (hname : x ≠ name) (h : name ∈ (NormEnv.image env x).freeNames) :
      Captures (telescope env (.cons rank type name rest) c)
  | reduct {env : NormEnv} {rank c c₁ c₂ : Nat} {param : String} {stamp : Stamp}
      {type operator operand operand' body : Core}
      (hoperator : operator.Normalizes env c (.lam param stamp body) c₁)
      (hoperand : operand.Normalizes env c₁ operand' c₂)
      (h : ¬ (body.subst (.single param operand')).IsInstanceOf body (.single param operand')) :
      Captures (core env (.app rank type operator operand) c)

/-- Neither the call nor any other that follows from it captures a name. -/
def CaptureFree (call : Call) : Prop := ∀ call', ReflTransGen Makes call call' → ¬ call'.Captures

theorem CaptureFree.makes {call call' : Call} (h : call.CaptureFree) (hmakes : call.Makes call') :
    call'.CaptureFree :=
  fun call'' hcalls ↦ h call'' (.head hmakes hcalls)

theorem CaptureFree.not_captures {call : Call} (h : call.CaptureFree) : ¬ call.Captures :=
  h call .refl

end Call

/-! ### Reduction -/

section Reduction

variable {τ υ : Ref → Nameless}

/-- Where a name stands for a variable that captures nothing, what stands for the other names is the
same, shifted. -/
theorem NormEnv.meaning_image_under {env inner : NormEnv} {name fresh : String} {xs : List String}
    (hinner : ∀ x, NormEnv.image inner x = if x = name then .var fresh else NormEnv.image env x)
    (hcapture : ∀ x ∈ xs, x ≠ name → fresh ∉ (NormEnv.image env x).freeNames)
    (h : ∀ x ∈ xs.filter (· != name), τ (.free x) = (NormEnv.image env x).meaning υ) :
    ∀ x ∈ xs, under τ name (.free x) = (NormEnv.image inner x).meaning (under υ fresh) := by
  intro x hx
  rw [hinner]
  by_cases hname : x = name
  · subst hname
    rw [if_pos rfl, under_self]
    exact (under_self υ _).symm
  · rw [if_neg hname, under_of_ne τ name hname, Core.meaning_under υ (hcapture x hx hname),
      h x (by simpa [hname] using hx)]

theorem NormEnv.meaning_image_bind {env : NormEnv} {c : Nat} {name : String} {body : Core}
    (hcapture : ∀ x ∈ body.freeNames, x ≠ name →
      (NormEnv.bind env name c).1.1 ∉ (NormEnv.image env x).freeNames)
    (h : ∀ x ∈ body.freeNames.filter (· != name), τ (.free x) = (NormEnv.image env x).meaning υ) :
    ∀ x ∈ body.freeNames, under τ name (.free x) =
      (NormEnv.image (NormEnv.bind env name c).1.2 x).meaning
        (under υ (NormEnv.bind env name c).1.1) :=
  NormEnv.meaning_image_under (NormEnv.image_bind env name c) hcapture h

/-- Below a label, which is never renamed. -/
theorem NormEnv.meaning_image_push {env : NormEnv} {name : String} {rest : Telescope}
    (hcapture : ∀ x ∈ rest.freeNames, x ≠ name → name ∉ (NormEnv.image env x).freeNames)
    (h : ∀ x ∈ rest.freeNames.filter (· != name), τ (.free x) = (NormEnv.image env x).meaning υ) :
    ∀ x ∈ rest.freeNames, under τ name (.free x) =
      (NormEnv.image (Env.push env name (.var name)) x).meaning (under υ name) :=
  NormEnv.meaning_image_under (NormEnv.image_push env name _) hcapture h

/-- An applied lambda is contracted to the instance of its body. -/
theorem Core.IsInstanceOf.par_beta {s body operand : Core} {param : String}
    (h : s.IsInstanceOf body (.single param operand)) (υ : Ref → Nameless) (rank : Nat)
    (type : Nameless) :
    Par (.app rank type (.lam (body.meaning (under υ param))) (operand.meaning υ))
      (s.meaning υ) := by
  rw [h.meaning_single, ← Core.inst_meaning]
  exact .beta rank type (.refl _) (.refl _)

mutual

/-- A term, with what stands for its free names put in, reduces to its normal form. -/
theorem Core.Normalizes.reduces {τ υ : Ref → Nameless} {env : NormEnv} {t n : Core} {c c' : Nat} :
    t.Normalizes env c n c' → (Call.core env t c).CaptureFree →
      (∀ x ∈ t.freeNames, τ (.free x) = (NormEnv.image env x).meaning υ) →
      Reduces (t.meaning τ) (n.meaning υ)
  | .univ, _, _ | .const, _, _ => .refl
  | .var, _, h => by
    rw [← h _ (by simp [Core.freeNames])]
    exact .refl
  | .quant hdomain hcodomain, hfree, h => by
    obtain ⟨hd, hc⟩ := List.forall_mem_append.mp h
    rw [Core.meaning_quant, Core.meaning_quant]
    refine (hdomain.reduces (hfree.makes .domain) hd).quant _ _
      (hcodomain.reduces (hfree.makes (.codomain hdomain)) (NormEnv.meaning_image_bind ?_ hc))
    intro x hx hname hmem
    exact hfree.not_captures (.codomain hdomain hx hname hmem)
  | .signature hmembers, hfree, h => (hmembers.reduces (hfree.makes .signature) h).signature
  | .lam hbody, hfree, h => by
    rw [Core.meaning_lam, Core.meaning_lam]
    refine (hbody.reduces (hfree.makes .body) (NormEnv.meaning_image_bind ?_ h)).lam
    intro x hx hparam hmem
    exact hfree.not_captures (.body hx hparam hmem)
  | .record hmembers, hfree, h => (hmembers.reduces (hfree.makes .record) h).record
  | .beta hoperator hoperand hresult, hfree, h => by
    obtain ⟨h, ha⟩ := List.forall_mem_append.mp h
    obtain ⟨-, ho⟩ := List.forall_mem_append.mp h
    have hinstance := by_contra fun hnot ↦
      hfree.not_captures (.reduct hoperator hoperand hnot)
    have hrest : Reduces (Core.meaning υ _) _ :=
      hresult.reduces (hfree.makes (.reduct hoperator hoperand)) fun _ _ ↦ rfl
    have ho := hoperator.reduces (hfree.makes .operator) ho
    rw [Core.meaning_lam] at ho
    have ha := hoperand.reduces (hfree.makes (.operand hoperator)) ha
    exact ReflTransGen.trans
      (.tail (Reduces.app _ .refl ho ha) (hinstance.par_beta υ _ _)) hrest
  | .app hoperator hstuck hoperand htype, hfree, h => by
    obtain ⟨h, ha⟩ := List.forall_mem_append.mp h
    obtain ⟨hty, ho⟩ := List.forall_mem_append.mp h
    exact Reduces.app _ (htype.reduces (hfree.makes (.appType hoperator hstuck hoperand)) hty)
      (hoperator.reduces (hfree.makes .operator) ho)
      (hoperand.reduces (hfree.makes (.operand hoperator)) ha)
  | .select hoperator hmember, hfree, h => by
    obtain ⟨-, ho⟩ := List.forall_mem_append.mp h
    have hparts := hoperator.reduces (hfree.makes .projected) ho
    have hnth := nth_subst _ υ (Core.nth_namelessMembers hmember [])
    exact (Reduces.proj _ _ .refl hparts).tail (.select _ _ (.refl _) hnth)
  | .proj hoperator hstuck htype, hfree, h => by
    obtain ⟨hty, ho⟩ := List.forall_mem_append.mp h
    exact Reduces.proj _ _ (htype.reduces (hfree.makes (.projType hoperator hstuck)) hty)
      (hoperator.reduces (hfree.makes .projected) ho)

theorem Telescope.Normalizes.reduces {τ υ : Ref → Nameless} {env : NormEnv} {t n : Telescope}
    {c c' : Nat} :
    t.Normalizes env c n c' → (Call.telescope env t c).CaptureFree →
      (∀ x ∈ t.freeNames, τ (.free x) = (NormEnv.image env x).meaning υ) →
      Reduces (t.meaning τ) (n.meaning υ)
  | .nil, _, _ => .refl
  | .cons htype hrest, hfree, h => by
    obtain ⟨hty, hr⟩ := List.forall_mem_append.mp h
    rw [Telescope.meaning_cons, Telescope.meaning_cons]
    refine (htype.reduces (hfree.makes .declared) hty).declare _ _
      (hrest.reduces (hfree.makes (.rest htype)) (NormEnv.meaning_image_push ?_ hr))
    intro x hx hname hmem
    exact hfree.not_captures (.label hx hname hmem)

theorem Core.NormalizesMembers.reduces {τ υ : Ref → Nameless} {env : NormEnv} {ts ns : List Core}
    {c c' : Nat} :
    Core.NormalizesMembers env ts c ns c' → (Call.members env ts c).CaptureFree →
      (∀ x ∈ Core.freeNamesMembers ts, τ (.free x) = (NormEnv.image env x).meaning υ) →
      Reduces (Core.meaningMembers τ ts) (Core.meaningMembers υ ns)
  | .nil, _, _ => .refl
  | .cons hhead htail, hfree, h => by
    obtain ⟨hm, hms⟩ := List.forall_mem_append.mp h
    exact (hhead.reduces (hfree.makes .head) hm).cons
      (htail.reduces (hfree.makes (.tail hhead)) hms)

end

/-- The same for a normalization with a new counter. -/
theorem Core.reduces_normalForm {fuel : Nat} {env : NormEnv} {t n : Core}
    (h : t.normalForm fuel env = .ok n) (hfree : (Call.core env t 0).CaptureFree) :
    Reduces (t.meaning (named (NormEnv.image env))) (n.nameless []) := by
  obtain ⟨c, hc⟩ := Core.normalizes_of_normalForm h
  rw [← n.meaning_var]
  exact hc.reduces hfree fun x _ ↦ ((NormEnv.image env x).meaning_var).symm

end Reduction

/-! ### Tame calls -/

section Tame

variable {L : String → Prop}

/-- The environment and what is normalized under it are tame. -/
def Call.Tame (L : String → Prop) : Call → Prop
  | core env t c => env.Tame L c ∧ t.Tame L c
  | telescope env types c => env.Tame L c ∧ (Core.signature types).Tame L c
  | members env ts c => env.Tame L c ∧ (Core.record ts).Tame L c

theorem Core.Tame.label {c rank : Nat} {type : Core} {l : String} {rest : Telescope}
    (h : (Core.signature (.cons rank type l rest)).Tame L c) : L l :=
  (h.apart .label l (by simp [Core.names, Telescope.names])).mp rfl

/-- The parts of an applied lambda, after they were normalized. -/
theorem Call.Tame.reduct (hL : OriginalLabels L) {env : NormEnv} {rank c c₁ c₂ : Nat}
    {param : String} {stamp : Stamp} {type operator operand operand' body : Core}
    (h : (Call.core env (.app rank type operator operand) c).Tame L)
    (hoperator : operator.Normalizes env c (.lam param stamp body) c₁)
    (hoperand : operand.Normalizes env c₁ operand' c₂) : body.Tame L c₂ ∧ operand'.Tame L c₂ := by
  have hle := hoperator.counter_le
  have hfunction := hoperator.tame hL h.1
    (h.2.subset (List.subset_append_of_subset_left _ (List.subset_append_right _ _)))
  refine ⟨(hfunction.subset (List.subset_cons_self _ _)).mono hoperand.counter_le, ?_⟩
  exact hoperand.tame hL (h.1.mono hle) ((h.2.subset (List.subset_append_right _ _)).mono hle)

/-- One call. -/
theorem Call.Tame.makes (hL : OriginalLabels L) {call call' : Call} (h : call.Tame L)
    (hmakes : call.Makes call') : call'.Tame L := by
  cases hmakes with
  | domain => exact ⟨h.1, h.2.subset (List.subset_append_left _ _)⟩
  | codomain hdomain =>
    have hle := hdomain.counter_le
    refine ⟨(h.1.mono hle).bind hL (by simp [Core.names]) (h.2.mono hle), ?_⟩
    exact ((h.2.subset (List.subset_append_of_subset_right _ (List.subset_cons_self _ _))).mono
      hle).mono (NormEnv.bind_counter_ge _ _ _)
  | signature => exact h
  | declared => exact ⟨h.1, h.2.subset (List.subset_append_left _ _)⟩
  | rest htype =>
    have hle := htype.counter_le
    refine ⟨(h.1.mono hle).push (by simp [Core.names, Telescope.names]) (h.2.mono hle), ?_⟩
    exact (h.2.subset (List.subset_append_of_subset_right _ (List.subset_cons_self _ _))).mono hle
  | body =>
    refine ⟨h.1.bind hL (by simp [Core.names]) h.2, ?_⟩
    exact (h.2.subset (List.subset_cons_self _ _)).mono (NormEnv.bind_counter_ge _ _ _)
  | record => exact h
  | head => exact ⟨h.1, h.2.subset (List.subset_append_left _ _)⟩
  | tail ht =>
    have hle := ht.counter_le
    exact ⟨h.1.mono hle, (h.2.subset (List.subset_append_right _ _)).mono hle⟩
  | operator =>
    exact ⟨h.1, h.2.subset (List.subset_append_of_subset_left _ (List.subset_append_right _ _))⟩
  | operand hoperator =>
    have hle := hoperator.counter_le
    exact ⟨h.1.mono hle, (h.2.subset (List.subset_append_right _ _)).mono hle⟩
  | reduct hoperator hoperand =>
    obtain ⟨hbody, hoperand⟩ := h.reduct hL hoperator hoperand
    exact ⟨.nil L _, hbody.reduct hL hoperand⟩
  | appType hoperator _ hoperand =>
    have hle := Nat.le_trans hoperator.counter_le hoperand.counter_le
    exact ⟨h.1.mono hle, (h.2.subset (List.subset_append_of_subset_left _
      (List.subset_append_left _ _))).mono hle⟩
  | projected => exact ⟨h.1, h.2.subset (List.subset_append_right _ _)⟩
  | projType hoperator =>
    have hle := hoperator.counter_le
    exact ⟨h.1.mono hle, (h.2.subset (List.subset_append_left _ _)).mono hle⟩

theorem Call.Tame.not_captures (hL : OriginalLabels L) {call : Call} (h : call.Tame L) :
    ¬ call.Captures := by
  intro hcaptures
  cases hcaptures with
  | codomain hdomain hx hname hmem =>
    have hle := hdomain.counter_le
    have hcodomain := (h.2.subset (List.subset_append_of_subset_right _
      (List.subset_cons_self _ _))).mono hle
    exact NormEnv.bind_not_mem_image (h.1.mono hle).below hcodomain.below hx hname hmem
  | body hx hparam hmem =>
    have hbody := h.2.subset (List.subset_cons_self _ _)
    exact NormEnv.bind_not_mem_image h.1.below hbody.below hx hparam hmem
  | @label env rank c type name x rest hx hname hmem =>
    have hrest : (Core.signature rest).Tame L c :=
      h.2.subset (List.subset_append_of_subset_right _ (List.subset_cons_self _ _))
    have himage := h.1.apart.image hrest.apart (rest.mem_names_of_mem_freeNames hx)
      (hrest.below.ne_anonymous hx)
    exact himage.not_mem_freeNames h.2.label hmem
  | reduct hoperator hoperand hnot =>
    obtain ⟨hbody, hoperand⟩ := h.reduct hL hoperator hoperand
    refine hnot (Core.subst_isInstanceOf (.single ?_ _) fun l hl ↦ ?_)
    · intro hmem
      exact hoperand.below.ne_anonymous hmem rfl
    · have hlabel := (hbody.apart _ l hl).mp rfl
      refine ⟨(hL l hlabel).1, fun entry hentry ↦ ?_⟩
      rw [Substitution.single, List.mem_singleton] at hentry
      subst hentry
      exact hoperand.apart.not_mem_freeNames hlabel

/-- All calls that follow. -/
theorem Call.Tame.captureFree (hL : OriginalLabels L) {call : Call} (h : call.Tame L) :
    call.CaptureFree := by
  intro call' hcalls
  have htame : call'.Tame L := by
    induction hcalls with
    | refl => exact h
    | tail _ hmakes ih => exact ih.makes hL hmakes
  exact htame.not_captures hL

end Tame

end RankedTT
