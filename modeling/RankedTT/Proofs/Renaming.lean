import RankedTT.Proofs.Convertibility

/-!
Normalization does not depend on the names of binders. Two terms that agree up to these names may
be renamed at different places while they are normalized: a binder is renamed only where its name is
taken. As long as no call of the normalizer captures a name, the two normalizations make the same
reductions, and the normal forms agree again. Where a label captures a name, they need not.
-/

set_option autoImplicit false
set_option relaxedAutoImplicit false

namespace RankedTT

open Nameless

/-! ### Terms of the same meaning -/

/-- Every name stands for a variable. -/
def Nameless.RenamesFree (τ : Ref → Nameless) : Prop := ∀ x, ∃ v, τ (.free x) = .var v

theorem Nameless.renamesFree_var : RenamesFree .var := fun x ↦ ⟨.free x, rfl⟩

theorem Nameless.RenamesFree.under {τ : Ref → Nameless} (h : RenamesFree τ) (name : String) :
    RenamesFree (under τ name) := by
  intro x
  by_cases hx : x = name
  · subst hx
    exact ⟨.bound 0, under_self τ x⟩
  · obtain ⟨v, hv⟩ := h x
    exact ⟨v.rename (· + 1), by rw [under_of_ne τ name hx, hv]; rfl⟩

/-- The two terms are of the same kind, and their parts have the same meaning. -/
inductive Core.SameForm (τ τ' : Ref → Nameless) : Core → Core → Prop
  | univ (rank : Nat) : Core.SameForm τ τ' (.univ rank) (.univ rank)
  | quant (polarity : Polarity) (rank : Nat) {domain codomain domain' codomain' : Core}
      {name name' : String} (hdomain : domain.meaning τ = domain'.meaning τ')
      (hcodomain : codomain.meaning (under τ name) = codomain'.meaning (under τ' name')) :
      Core.SameForm τ τ' (.quant polarity rank domain name codomain)
        (.quant polarity rank domain' name' codomain')
  | signature {types types' : Telescope} (htypes : types.meaning τ = types'.meaning τ') :
      Core.SameForm τ τ' (.signature types) (.signature types')
  | lam {param param' : String} (stamp stamp' : Stamp) {body body' : Core}
      (hbody : body.meaning (under τ param) = body'.meaning (under τ' param')) :
      Core.SameForm τ τ' (.lam param stamp body) (.lam param' stamp' body')
  | record {members members' : List Core}
      (hmembers : Core.meaningMembers τ members = Core.meaningMembers τ' members') :
      Core.SameForm τ τ' (.record members) (.record members')
  | app (rank : Nat) {type type' operator operator' operand operand' : Core}
      (htype : type.meaning τ = type'.meaning τ')
      (hoperator : operator.meaning τ = operator'.meaning τ')
      (hoperand : operand.meaning τ = operand'.meaning τ') :
      Core.SameForm τ τ' (.app rank type operator operand) (.app rank type' operator' operand')
  | proj (rank index : Nat) {type type' operator operator' : Core}
      (htype : type.meaning τ = type'.meaning τ')
      (hoperator : operator.meaning τ = operator'.meaning τ') :
      Core.SameForm τ τ' (.proj rank type operator index) (.proj rank type' operator' index)
  | var {x x' : String} (h : τ (.free x) = τ' (.free x')) : Core.SameForm τ τ' (.var x) (.var x')
  | const {v w : Value} (h : v.key = w.key) : Core.SameForm τ τ' (.const v) (.const w)

section Forms

variable {τ τ' : Ref → Nameless}

/-- A name stands for a variable, so a term that is no variable cannot have its meaning. -/
theorem Core.isVar_of_meaning_eq (hτ' : RenamesFree τ') {t : Core} {y : String}
    (h : t.meaning τ = (Core.var y).meaning τ') : ∃ x, t = .var x := by
  obtain ⟨v, hv⟩ := hτ' y
  change t.meaning τ = τ' (.free y) at h
  rw [hv] at h
  cases t with
  | var x => exact ⟨x, rfl⟩
  | _ => cases h

theorem Core.sameForm_of_meaning_eq (hτ : RenamesFree τ) (hτ' : RenamesFree τ') {t t' : Core}
    (h : t.meaning τ = t'.meaning τ') : Core.SameForm τ τ' t t' := by
  by_cases hvar : ∃ y, t' = .var y
  · obtain ⟨y, rfl⟩ := hvar
    obtain ⟨x, rfl⟩ := Core.isVar_of_meaning_eq hτ' h
    exact .var h
  cases t with
  | var x => exact absurd (Core.isVar_of_meaning_eq hτ h.symm) hvar
  | univ rank =>
    cases t' with
    | univ =>
      injection h with hrank
      exact hrank ▸ .univ rank
    | var y => exact absurd ⟨y, rfl⟩ hvar
    | _ => cases h
  | quant polarity rank domain name codomain =>
    cases t' with
    | quant =>
      rw [Core.meaning_quant, Core.meaning_quant] at h
      injection h with hpolarity hrank hdomain hcodomain
      subst hpolarity hrank
      exact .quant _ _ hdomain hcodomain
    | var y => exact absurd ⟨y, rfl⟩ hvar
    | _ => cases h
  | signature types =>
    cases t' with
    | signature =>
      injection h with htypes
      exact .signature htypes
    | var y => exact absurd ⟨y, rfl⟩ hvar
    | _ => cases h
  | lam param stamp body =>
    cases t' with
    | lam =>
      rw [Core.meaning_lam, Core.meaning_lam] at h
      injection h with hbody
      exact .lam _ _ hbody
    | var y => exact absurd ⟨y, rfl⟩ hvar
    | _ => cases h
  | record members =>
    cases t' with
    | record =>
      injection h with hmembers
      exact .record hmembers
    | var y => exact absurd ⟨y, rfl⟩ hvar
    | _ => cases h
  | app rank type operator operand =>
    cases t' with
    | app =>
      injection h with hrank htype hoperator hoperand
      subst hrank
      exact .app _ htype hoperator hoperand
    | var y => exact absurd ⟨y, rfl⟩ hvar
    | _ => cases h
  | proj rank type operator index =>
    cases t' with
    | proj =>
      injection h with hrank htype hoperator hindex
      subst hrank hindex
      exact .proj _ _ htype hoperator
    | var y => exact absurd ⟨y, rfl⟩ hvar
    | _ => cases h
  | const value =>
    cases t' with
    | const =>
      injection h with hkey
      exact .const hkey
    | var y => exact absurd ⟨y, rfl⟩ hvar
    | _ => cases h

end Forms

/-! ### Two normalizations at once -/

/-- Names of the two sides that stand for the same variable have values of the same meaning. -/
def AgreeOn (τ τ' υ υ' : Ref → Nameless) (image image' : String → Core) (xs xs' : List String) :
    Prop :=
  ∀ x ∈ xs, ∀ x' ∈ xs', τ (.free x) = τ' (.free x') →
    (image x).meaning υ = (image' x').meaning υ'

section Agreement

variable {τ τ' υ υ' : Ref → Nameless} {image image' : String → Core}

theorem AgreeOn.subset {xs xs' ys ys' : List String}
    (h : AgreeOn τ τ' υ υ' image image' xs xs') (hys : ys ⊆ xs) (hys' : ys' ⊆ xs') :
    AgreeOn τ τ' υ υ' image image' ys ys' :=
  fun x hx x' hx' ↦ h x (hys hx) x' (hys' hx')

/-- Where every name stands for itself, names agree if they stand for the same variable. -/
theorem agreeOn_nil (υ υ' : Ref → Nameless) (xs xs' : List String) :
    AgreeOn υ υ' υ υ' (NormEnv.image []) (NormEnv.image []) xs xs' :=
  fun _ _ _ _ h ↦ h

/-- Below two binders, which get the names `fresh` and `fresh'` and capture nothing. -/
theorem AgreeOn.under (hτ : RenamesFree τ) (hτ' : RenamesFree τ') {name name' fresh fresh' : String}
    {inner inner' : String → Core} {xs xs' : List String}
    (hinner : ∀ x, inner x = if x = name then .var fresh else image x)
    (hinner' : ∀ x, inner' x = if x = name' then .var fresh' else image' x)
    (hfresh : ∀ x ∈ xs, x ≠ name → fresh ∉ (image x).freeNames)
    (hfresh' : ∀ x ∈ xs', x ≠ name' → fresh' ∉ (image' x).freeNames)
    (h : AgreeOn τ τ' υ υ' image image' (xs.filter (· != name)) (xs'.filter (· != name'))) :
    AgreeOn (under τ name) (under τ' name') (under υ fresh) (under υ' fresh') inner inner'
      xs xs' := by
  intro x hx x' hx' heq
  rw [hinner, hinner']
  obtain ⟨v, hv⟩ := hτ x
  obtain ⟨v', hv'⟩ := hτ' x'
  by_cases hname : x = name <;> by_cases hname' : x' = name'
  · rw [if_pos hname, if_pos hname']
    exact (under_self υ fresh).trans (under_self υ' fresh').symm
  · rw [hname, under_self, under_of_ne τ' name' hname', hv'] at heq
    injection heq with heq
    exact absurd heq (Ref.bound_zero_ne_rename_succ v')
  · rw [hname', under_self, under_of_ne τ name hname, hv] at heq
    injection heq with heq
    exact absurd heq.symm (Ref.bound_zero_ne_rename_succ v)
  · rw [under_of_ne τ name hname, under_of_ne τ' name' hname', hv, hv'] at heq
    injection heq with heq
    have hsame := h x (by simpa [hname] using hx) x' (by simpa [hname'] using hx')
      (by rw [hv, hv', Ref.rename_succ_injective heq])
    rw [if_neg hname, if_neg hname', Core.meaning_under υ (hfresh x hx hname),
      Core.meaning_under υ' (hfresh' x' hx' hname'), hsame]

end Agreement

/-- The valuations of the two sides, before and after normalization: they rename, and names that
stand for the same variable before have values of the same meaning after. -/
structure Aligned (τ τ' υ υ' : Ref → Nameless) (env env' : NormEnv) (xs xs' : List String) :
    Prop where
  before : RenamesFree τ
  before' : RenamesFree τ'
  after : RenamesFree υ
  after' : RenamesFree υ'
  images : AgreeOn τ τ' υ υ' (NormEnv.image env) (NormEnv.image env') xs xs'

namespace Aligned

variable {τ τ' υ υ' : Ref → Nameless} {env env' : NormEnv} {xs xs' ys ys' : List String}

theorem subset (h : Aligned τ τ' υ υ' env env' xs xs') (hys : ys ⊆ xs) (hys' : ys' ⊆ xs') :
    Aligned τ τ' υ υ' env env' ys ys' :=
  { h with images := h.images.subset hys hys' }

theorem append_left (h : Aligned τ τ' υ υ' env env' (xs ++ ys) (xs' ++ ys')) :
    Aligned τ τ' υ υ' env env' xs xs' :=
  h.subset (List.subset_append_left _ _) (List.subset_append_left _ _)

theorem append_right (h : Aligned τ τ' υ υ' env env' (xs ++ ys) (xs' ++ ys')) :
    Aligned τ τ' υ υ' env env' ys ys' :=
  h.subset (List.subset_append_right _ _) (List.subset_append_right _ _)

/-- For a reduct, which is normalized under the empty environment. -/
theorem reduct (h : Aligned τ τ' υ υ' env env' xs xs') :
    Aligned υ υ' υ υ' [] [] ys ys' :=
  ⟨h.after, h.after', h.after, h.after', agreeOn_nil υ υ' ys ys'⟩

theorem bind {name name' : String} {c c' : Nat}
    (h : Aligned τ τ' υ υ' env env' (xs.filter (· != name)) (xs'.filter (· != name')))
    (hfree : ∀ x ∈ xs, x ≠ name →
      (NormEnv.bind env name c).1.1 ∉ (NormEnv.image env x).freeNames)
    (hfree' : ∀ x ∈ xs', x ≠ name' →
      (NormEnv.bind env' name' c').1.1 ∉ (NormEnv.image env' x).freeNames) :
    Aligned (Nameless.under τ name) (Nameless.under τ' name')
      (Nameless.under υ (NormEnv.bind env name c).1.1)
      (Nameless.under υ' (NormEnv.bind env' name' c').1.1)
      (NormEnv.bind env name c).1.2 (NormEnv.bind env' name' c').1.2 xs xs' where
  before := h.before.under name
  before' := h.before'.under name'
  after := h.after.under _
  after' := h.after'.under _
  images := h.images.under h.before h.before' (NormEnv.image_bind env name c)
    (NormEnv.image_bind env' name' c') hfree hfree'

/-- Below a label, which both sides have. -/
theorem push {name : String}
    (h : Aligned τ τ' υ υ' env env' (xs.filter (· != name)) (xs'.filter (· != name)))
    (hfree : ∀ x ∈ xs, x ≠ name → name ∉ (NormEnv.image env x).freeNames)
    (hfree' : ∀ x ∈ xs', x ≠ name → name ∉ (NormEnv.image env' x).freeNames) :
    Aligned (Nameless.under τ name) (Nameless.under τ' name) (Nameless.under υ name)
      (Nameless.under υ' name) (Env.push env name (.var name)) (Env.push env' name (.var name))
      xs xs' where
  before := h.before.under name
  before' := h.before'.under name
  after := h.after.under _
  after' := h.after'.under _
  images := h.images.under h.before h.before' (NormEnv.image_push env name _)
    (NormEnv.image_push env' name _) hfree hfree'

end Aligned

/-- The reducts of applied lambdas of the same meaning. -/
theorem Core.meaning_reduct_eq {υ υ' : Ref → Nameless} {param param' : String}
    {body body' operand operand' : Core}
    (hinstance : (body.subst (.single param operand)).IsInstanceOf body (.single param operand))
    (hinstance' : (body'.subst (.single param' operand')).IsInstanceOf body'
      (.single param' operand'))
    (hbody : body.meaning (under υ param) = body'.meaning (under υ' param'))
    (hoperand : operand.meaning υ = operand'.meaning υ') :
    (body.subst (.single param operand)).meaning υ =
      (body'.subst (.single param' operand')).meaning υ' := by
  rw [hinstance.meaning_single, hinstance'.meaning_single, ← Core.inst_meaning,
    ← Core.inst_meaning, hbody, hoperand]

theorem Core.meaning_getElem_eq {υ υ' : Ref → Nameless} {ms ms' : List Core} {i : Nat}
    {m m' : Core} (h : Core.meaningMembers υ ms = Core.meaningMembers υ' ms')
    (hm : ms[i]? = some m) (hm' : ms'[i]? = some m') : m.meaning υ = m'.meaning υ' := by
  have hnth := nth_subst _ υ (Core.nth_namelessMembers hm [])
  have hnth' := nth_subst _ υ' (Core.nth_namelessMembers hm' [])
  change (Core.meaningMembers υ ms).nth i = _ at hnth
  change (Core.meaningMembers υ' ms').nth i = _ at hnth'
  rw [h, hnth'] at hnth
  exact (Option.some.inj hnth).symm

mutual

/-- Terms of the same meaning have normal forms of the same meaning. -/
theorem Core.Normalizes.meaning_eq {τ τ' υ υ' : Ref → Nameless} {env env' : NormEnv}
    {t t' n n' : Core} {c c' d d' : Nat} :
    t.Normalizes env c n d → t'.Normalizes env' c' n' d' →
      (Call.core env t c).CaptureFree → (Call.core env' t' c').CaptureFree →
      Aligned τ τ' υ υ' env env' t.freeNames t'.freeNames → t.meaning τ = t'.meaning τ' →
      n.meaning υ = n'.meaning υ'
  | .univ, h', _, _, halign, heq => by
    cases Core.sameForm_of_meaning_eq halign.before halign.before' heq
    cases h'
    rfl
  | .const, h', _, _, halign, heq => by
    cases Core.sameForm_of_meaning_eq halign.before halign.before' heq with
    | const =>
      cases h'
      exact heq
  | .var, h', _, _, halign, heq => by
    cases Core.sameForm_of_meaning_eq halign.before halign.before' heq with
    | var hvar =>
      cases h'
      exact halign.images _ (by simp [Core.freeNames]) _ (by simp [Core.freeNames]) hvar
  | .quant hdomain hcodomain, h', hfree, hfree', halign, heq => by
    cases Core.sameForm_of_meaning_eq halign.before halign.before' heq with
    | quant _ _ hd hc =>
      cases h' with
      | quant hdomain' hcodomain' =>
        have hinner := halign.append_right.bind
          (fun x hx hname hmem ↦ hfree.not_captures (.codomain hdomain hx hname hmem))
          (fun x hx hname hmem ↦ hfree'.not_captures (.codomain hdomain' hx hname hmem))
        rw [Core.meaning_quant, Core.meaning_quant,
          hdomain.meaning_eq hdomain' (hfree.makes .domain) (hfree'.makes .domain)
            halign.append_left hd,
          hcodomain.meaning_eq hcodomain' (hfree.makes (.codomain hdomain))
            (hfree'.makes (.codomain hdomain')) hinner hc]
  | .signature hmembers, h', hfree, hfree', halign, heq => by
    cases Core.sameForm_of_meaning_eq halign.before halign.before' heq with
    | signature htypes =>
      cases h' with
      | signature hmembers' =>
        exact congrArg Nameless.signature (hmembers.meaning_eq hmembers'
          (hfree.makes .signature) (hfree'.makes .signature) halign htypes)
  | .lam hbody, h', hfree, hfree', halign, heq => by
    cases Core.sameForm_of_meaning_eq halign.before halign.before' heq with
    | lam _ _ hb =>
      cases h' with
      | lam hbody' =>
        have hinner := halign.bind
          (fun x hx hparam hmem ↦ hfree.not_captures (.body hx hparam hmem))
          (fun x hx hparam hmem ↦ hfree'.not_captures (.body hx hparam hmem))
        rw [Core.meaning_lam, Core.meaning_lam, hbody.meaning_eq hbody' (hfree.makes .body)
          (hfree'.makes .body) hinner hb]
  | .record hmembers, h', hfree, hfree', halign, heq => by
    cases Core.sameForm_of_meaning_eq halign.before halign.before' heq with
    | record hms =>
      cases h' with
      | record hmembers' =>
        exact congrArg Nameless.record (hmembers.meaning_eq hmembers'
          (hfree.makes .record) (hfree'.makes .record) halign hms)
  | .beta hoperator hoperand hresult, h', hfree, hfree', halign, heq => by
    cases Core.sameForm_of_meaning_eq halign.before halign.before' heq with
    | app _ _ ho ha =>
      cases h' with
      | beta hoperator' hoperand' hresult' =>
        have hop := hoperator.meaning_eq hoperator' (hfree.makes .operator)
          (hfree'.makes .operator) halign.append_left.append_right ho
        have harg := hoperand.meaning_eq hoperand' (hfree.makes (.operand hoperator))
          (hfree'.makes (.operand hoperator')) halign.append_right ha
        rw [Core.meaning_lam, Core.meaning_lam] at hop
        injection hop with hbody
        have hinstance := by_contra fun hnot ↦
          hfree.not_captures (.reduct hoperator hoperand hnot)
        have hinstance' := by_contra fun hnot ↦
          hfree'.not_captures (.reduct hoperator' hoperand' hnot)
        exact hresult.meaning_eq hresult' (hfree.makes (.reduct hoperator hoperand))
          (hfree'.makes (.reduct hoperator' hoperand')) halign.reduct
          (Core.meaning_reduct_eq hinstance hinstance' hbody harg)
      | app hoperator' hstuck' _ _ =>
        have hop := hoperator.meaning_eq hoperator' (hfree.makes .operator)
          (hfree'.makes .operator) halign.append_left.append_right ho
        cases Core.sameForm_of_meaning_eq halign.after halign.after' hop
        exact absurd rfl (hstuck' _ _ _)
  | .app hoperator hstuck hoperand htype, h', hfree, hfree', halign, heq => by
    cases Core.sameForm_of_meaning_eq halign.before halign.before' heq with
    | app _ ht ho ha =>
      cases h' with
      | beta hoperator' _ _ =>
        have hop := hoperator.meaning_eq hoperator' (hfree.makes .operator)
          (hfree'.makes .operator) halign.append_left.append_right ho
        cases Core.sameForm_of_meaning_eq halign.after halign.after' hop
        exact absurd rfl (hstuck _ _ _)
      | app hoperator' hstuck' hoperand' htype' =>
        have hop := hoperator.meaning_eq hoperator' (hfree.makes .operator)
          (hfree'.makes .operator) halign.append_left.append_right ho
        have harg := hoperand.meaning_eq hoperand' (hfree.makes (.operand hoperator))
          (hfree'.makes (.operand hoperator')) halign.append_right ha
        have hty := htype.meaning_eq htype' (hfree.makes (.appType hoperator hstuck hoperand))
          (hfree'.makes (.appType hoperator' hstuck' hoperand')) halign.append_left.append_left ht
        change Nameless.app _ (Core.meaning υ _) (Core.meaning υ _) (Core.meaning υ _) = _
        rw [hty, hop, harg]
        rfl
  | .select hoperator hmember, h', hfree, hfree', halign, heq => by
    cases Core.sameForm_of_meaning_eq halign.before halign.before' heq with
    | proj _ _ _ ho =>
      cases h' with
      | select hoperator' hmember' =>
        have hop := hoperator.meaning_eq hoperator' (hfree.makes .projected)
          (hfree'.makes .projected) halign.append_right ho
        injection hop with hms
        exact Core.meaning_getElem_eq hms hmember hmember'
      | proj hoperator' hstuck' _ =>
        have hop := hoperator.meaning_eq hoperator' (hfree.makes .projected)
          (hfree'.makes .projected) halign.append_right ho
        cases Core.sameForm_of_meaning_eq halign.after halign.after' hop
        exact absurd rfl (hstuck' _)
  | .proj hoperator hstuck htype, h', hfree, hfree', halign, heq => by
    cases Core.sameForm_of_meaning_eq halign.before halign.before' heq with
    | proj _ _ ht ho =>
      cases h' with
      | select hoperator' _ =>
        have hop := hoperator.meaning_eq hoperator' (hfree.makes .projected)
          (hfree'.makes .projected) halign.append_right ho
        cases Core.sameForm_of_meaning_eq halign.after halign.after' hop
        exact absurd rfl (hstuck _)
      | proj hoperator' hstuck' htype' =>
        have hop := hoperator.meaning_eq hoperator' (hfree.makes .projected)
          (hfree'.makes .projected) halign.append_right ho
        have hty := htype.meaning_eq htype' (hfree.makes (.projType hoperator hstuck))
          (hfree'.makes (.projType hoperator' hstuck')) halign.append_left ht
        change Nameless.proj _ (Core.meaning υ _) (Core.meaning υ _) _ = _
        rw [hty, hop]
        rfl

theorem Telescope.Normalizes.meaning_eq {τ τ' υ υ' : Ref → Nameless} {env env' : NormEnv}
    {t t' n n' : Telescope} {c c' d d' : Nat} :
    t.Normalizes env c n d → t'.Normalizes env' c' n' d' →
      (Call.telescope env t c).CaptureFree → (Call.telescope env' t' c').CaptureFree →
      Aligned τ τ' υ υ' env env' t.freeNames t'.freeNames → t.meaning τ = t'.meaning τ' →
      n.meaning υ = n'.meaning υ'
  | .nil, .nil, _, _, _, _ => rfl
  | .nil, .cons _ _, _, _, _, heq => nomatch heq
  | .cons _ _, .nil, _, _, _, heq => nomatch heq
  | .cons htype hrest, .cons htype' hrest', hfree, hfree', halign, heq => by
    rw [Telescope.meaning_cons, Telescope.meaning_cons] at heq
    injection heq with hrank ht hname hr
    subst hrank hname
    have hinner := halign.append_right.push
      (fun x hx hname hmem ↦ hfree.not_captures (.label hx hname hmem))
      (fun x hx hname hmem ↦ hfree'.not_captures (.label hx hname hmem))
    rw [Telescope.meaning_cons, Telescope.meaning_cons,
      htype.meaning_eq htype' (hfree.makes .declared) (hfree'.makes .declared)
        halign.append_left ht,
      hrest.meaning_eq hrest' (hfree.makes (.rest htype)) (hfree'.makes (.rest htype')) hinner hr]

theorem Core.NormalizesMembers.meaning_eq {τ τ' υ υ' : Ref → Nameless} {env env' : NormEnv}
    {ts ts' ns ns' : List Core} {c c' d d' : Nat} :
    Core.NormalizesMembers env ts c ns d → Core.NormalizesMembers env' ts' c' ns' d' →
      (Call.members env ts c).CaptureFree → (Call.members env' ts' c').CaptureFree →
      Aligned τ τ' υ υ' env env' (Core.freeNamesMembers ts) (Core.freeNamesMembers ts') →
      Core.meaningMembers τ ts = Core.meaningMembers τ' ts' →
      Core.meaningMembers υ ns = Core.meaningMembers υ' ns'
  | .nil, .nil, _, _, _, _ => rfl
  | .nil, .cons _ _, _, _, _, heq => nomatch heq
  | .cons _ _, .nil, _, _, _, heq => nomatch heq
  | .cons hhead htail, .cons hhead' htail', hfree, hfree', halign, heq => by
    injection heq with hm hms
    have hmeaning := hhead.meaning_eq hhead' (hfree.makes .head) (hfree'.makes .head)
      halign.append_left hm
    have hmeanings := htail.meaning_eq htail' (hfree.makes (.tail hhead))
      (hfree'.makes (.tail hhead')) halign.append_right hms
    change Nameless.cons (Core.meaning υ _) (Core.meaningMembers υ _) = _
    rw [hmeaning, hmeanings]
    rfl

end

/-! ### Definitional equality -/

/-- Normalizing the type and the term under the environment captures no name. -/
def Classified.CaptureFree (env : NormEnv) (judgement : Classified Core) : Prop :=
  (Call.core env judgement.type 0).CaptureFree ∧ (Call.core env judgement.term 0).CaptureFree

/-- Terms that agree up to the names of binders have normal forms that do. -/
theorem Core.alphaEq_normalForm {fuel : Nat} {env : NormEnv} {t t' n n' : Core}
    (hfree : (Call.core env t 0).CaptureFree) (hfree' : (Call.core env t' 0).CaptureFree)
    (h : t.alphaEq t' = true) (hn : t.normalForm fuel env = .ok n)
    (hn' : t'.normalForm fuel env = .ok n') : n.alphaEq n' = true := by
  obtain ⟨c, hc⟩ := Core.normalizes_of_normalForm hn
  obtain ⟨c', hc'⟩ := Core.normalizes_of_normalForm hn'
  have hsame : AgreeOn .var .var .var .var (NormEnv.image env) (NormEnv.image env) t.freeNames
      t'.freeNames := by
    intro x _ x' _ heq
    injection heq with heq
    injection heq with heq
    rw [heq]
  have halign := Aligned.mk renamesFree_var renamesFree_var renamesFree_var renamesFree_var hsame
  rw [Core.alphaEq_iff, ← Core.meaning_var, ← Core.meaning_var] at h ⊢
  exact hc.meaning_eq hc' hfree hfree' halign h

/-- Judgements that agree up to the names of binders are definitionally equal, whenever there is an
answer at all. -/
theorem Classified.isEqualTo_of_alphaEq {fuel : Nat} {env : NormEnv} {lhs rhs : Classified Core}
    {b : Bool} (hlhs : lhs.CaptureFree env) (hrhs : rhs.CaptureFree env)
    (halpha : lhs.alphaEq rhs = true) (h : Classified.isEqualTo fuel env lhs rhs = .ok b) :
    b = true := by
  simp only [Classified.alphaEq, Bool.and_eq_true, beq_iff_eq] at halpha
  obtain ⟨⟨hrank, htype⟩, hterm⟩ := halpha
  unfold Classified.isEqualTo at h
  rw [if_neg (by simpa using hrank)] at h
  obtain ⟨lhsType, hlhsType, h⟩ := Run.outcome_bind_eq_ok_iff.mp h
  obtain ⟨rhsType, hrhsType, h⟩ := Run.outcome_bind_eq_ok_iff.mp h
  have htypes := Core.alphaEq_normalForm hlhs.1 hrhs.1 htype hlhsType hrhsType
  rw [if_neg (by simpa using htypes)] at h
  obtain ⟨lhsTerm, hlhsTerm, h⟩ := Run.outcome_bind_eq_ok_iff.mp h
  obtain ⟨rhsTerm, hrhsTerm, h⟩ := Run.outcome_bind_eq_ok_iff.mp h
  have hterms := Core.alphaEq_normalForm hlhs.2 hrhs.2 hterm hlhsTerm hrhsTerm
  injection h with h
  exact h ▸ hterms

/-- Two spellings of a function; the parameter of the first is renamed, since it is in scope. -/
theorem Classified.isEqualTo_of_alphaEq_identity :
    let env : NormEnv :=
      [("x", .const (.int 3)), ("id", .lam "z" none (.var "z")), ("int", .var "int")]
    let function (param : String) : Classified Core :=
      ⟨0, .quant .universal 0 (.var "int") anonymous (.var "int"),
        .lam param none (.app 0 (.univ 0) (.var "id") (.var param))⟩
    (function "x").alphaEq (function "y") = true ∧
      ∃ b, Classified.isEqualTo 9 env (function "x") (function "y") = .ok b ∧ b = true := by
  intro env function
  have henv : env.Plain := by
    refine ⟨?_, ?_, ?_⟩
    all_goals
      intro x value hmem
      simp only [env, List.mem_cons, Prod.mk.injEq, List.not_mem_nil, or_false] at hmem
      rcases hmem with ⟨rfl, rfl⟩ | ⟨rfl, rfl⟩ | ⟨rfl, rfl⟩
    · rfl
    · rfl
    · rfl
    · simp [Core.occursFree_iff_mem, Core.freeNames]
    · simp [Core.occursFree_iff_mem, Core.freeNames]
    · intro y hy
      obtain rfl : y = "int" := by simpa [Core.occursFree_iff_mem, Core.freeNames] using hy
      rfl
    · exact .of_names (by decide)
    · exact .of_names (by decide)
    · exact .of_names (by decide)
  have hfree {t : Core} (ht : t.Plain) : (Call.core env t 0).CaptureFree :=
    Call.Tame.captureFree (L := fun _ ↦ False) (by simp [OriginalLabels]) ⟨henv.tame 0, ht.tame 0⟩
  have hequal : Classified.isEqualTo 9 env (function "x") (function "y") = .ok true := by
    with_unfolding_all rfl
  refine ⟨rfl, true, hequal, Classified.isEqualTo_of_alphaEq ⟨hfree ?_, hfree ?_⟩
    ⟨hfree ?_, hfree ?_⟩ rfl hequal⟩
  all_goals exact .of_names (by decide)

/-- A label captures the parameter in one spelling of a function and not in the other. -/
theorem Classified.isEqualTo_label_captures :
    let family (param : String) : Classified Core :=
      ⟨1, .quant .universal 1 (.univ 0) anonymous (.univ 1),
        .lam param none
          (.app 2 (.quant .universal 1 (.univ 0) "T" (.univ 0))
            (.lam "T" none (.signature (.cons 1 (.univ 0) "l" (.cons 0 (.var "T") "m" .nil))))
            (.var param))⟩
    (family "l").alphaEq (family "k") = true ∧
      Classified.isEqualTo 9 [] (family "l") (family "k") = .ok false := by
  exact ⟨rfl, rfl⟩

end RankedTT
