import Mathlib
import RankedTT.Proofs.Convertibility
import RankedTT.Proofs.Denotation
import RankedTT.Proofs.Soundness
import RankedTT.Session.Basic

/-!
Accepted programs and what can go wrong with them. The normalizer fails on terms that go wrong only,
as long as it captures nothing, and so does the evaluator, apart from the operations of the host.
The prelude is well typed; so if the elaboration of a program was hygienic, the elaborated term does
not go wrong, and neither normalization nor evaluation fails.

Elaboration is not always hygienic. The labels of a record type are never renamed, so a label may
capture a parameter of the same name, and a program is accepted in which a number is applied.
-/

set_option autoImplicit false
set_option relaxedAutoImplicit false

namespace RankedTT

open Nameless Run

/-! ### Failing normalizations -/

section Normalization

theorem Core.endsBefore_meaningMembers {members : List Core} {index : Nat}
    (h : members[index]? = none) (υ : Ref → Nameless) :
    EndsBefore (Core.meaningMembers υ members) index := by
  induction members generalizing index with
  | nil => exact .nil index
  | cons m ms ih =>
    cases index with
    | zero => simp at h
    | succ index => exact .cons _ (ih (by simpa using h))

/-- Without capture, a normalizer fails only on terms that go wrong. -/
def FailsWrong (normalize : NormEnv → Core → Run Nat BadProjection Core) : Prop :=
  ∀ {τ υ : Ref → Nameless} {env : NormEnv} {t : Core} {c : Nat} {cause : BadProjection},
    (normalize env t).Fails c cause → (Call.core env t c).CaptureFree →
    (∀ x ∈ t.freeNames, τ (.free x) = (NormEnv.image env x).meaning υ) →
    GoesWrong (t.meaning τ)

theorem Telescope.goesWrong_of_fails {normalize : NormEnv → Core → Run Nat BadProjection Core}
    (hreturns : ∀ {env t c n c'}, (normalize env t).Returns c n c' → t.Normalizes env c n c')
    (hfails : FailsWrong normalize) {τ υ : Ref → Nameless} {env : NormEnv} {c : Nat}
    {cause : BadProjection} {types : Telescope}
    (h : (types.normalizeWith normalize env).Fails c cause)
    (hfree : (Call.telescope env types c).CaptureFree)
    (hτ : ∀ x ∈ types.freeNames, τ (.free x) = (NormEnv.image env x).meaning υ) :
    GoesWrong (types.meaning τ) := by
  match types with
  | .nil => simp [Telescope.normalizeWith] at h
  | .cons rank type name rest =>
    obtain ⟨hty, hr⟩ := List.forall_mem_append.mp hτ
    rw [Telescope.meaning_cons]
    simp only [Telescope.normalizeWith, fails_bind_iff, not_fails_pure, and_false, exists_false,
      or_false] at h
    rcases h with h | ⟨type', c₁, htype, h⟩
    · exact (hfails h (hfree.makes .declared) hty).declared _ _ _
    · refine (Telescope.goesWrong_of_fails hreturns hfails h (hfree.makes (.rest (hreturns htype)))
        (NormEnv.meaning_image_push ?_ hr)).rest _ _ _
      intro x hx hname hmem
      exact hfree.not_captures (.label hx hname hmem)

theorem Core.goesWrong_of_mapM_fails {normalize : NormEnv → Core → Run Nat BadProjection Core}
    (hreturns : ∀ {env t c n c'}, (normalize env t).Returns c n c' → t.Normalizes env c n c')
    (hfails : FailsWrong normalize) {τ υ : Ref → Nameless} {env : NormEnv} {c : Nat}
    {cause : BadProjection} {members : List Core}
    (h : (members.mapM (normalize env)).Fails c cause)
    (hfree : (Call.members env members c).CaptureFree)
    (hτ : ∀ x ∈ Core.freeNamesMembers members, τ (.free x) = (NormEnv.image env x).meaning υ) :
    GoesWrong (Core.meaningMembers τ members) := by
  induction members generalizing c with
  | nil => simp at h
  | cons m ms ih =>
    obtain ⟨hm, hms⟩ := List.forall_mem_append.mp hτ
    simp only [List.mapM_cons, fails_bind_iff, not_fails_pure, and_false, exists_false,
      or_false] at h
    rcases h with h | ⟨m', c₁, hhead, h⟩
    · exact (hfails h (hfree.makes .head) hm).head _
    · exact (ih h (hfree.makes (.tail (hreturns hhead))) hms).tail _

/-- A normalization that captures nothing and fails is that of a term that goes wrong. -/
theorem Core.normalize_failsWrong (fuel : Nat) : FailsWrong fun env t ↦ t.normalize fuel env := by
  intro τ υ env t c cause h hfree hτ
  induction fuel generalizing τ υ env t c cause with
  | zero => simp [Core.normalize] at h
  | succ fuel ih =>
    cases t with
    | univ | const | var => simp [Core.normalize] at h
    | quant polarity rank domain name codomain =>
      obtain ⟨hd, hc⟩ := List.forall_mem_append.mp hτ
      rw [Core.meaning_quant]
      simp only [Core.normalize, fails_bind_iff, not_fails_pure, not_fails_modifyGet,
        returns_modifyGet_iff, and_false, exists_false, or_false, false_or] at h
      rcases h with h | ⟨domain', c₁, hdomain, binder, c₂, hbind, h⟩
      · exact (ih h (hfree.makes .domain) hd).domain _ _ _
      · obtain ⟨rfl, rfl⟩ := Prod.mk.inj hbind
        have hdomain := Core.normalizes_of_returns hdomain
        refine (ih h (hfree.makes (.codomain hdomain))
          (NormEnv.meaning_image_bind ?_ hc)).codomain _ _ _
        intro x hx hname hmem
        exact hfree.not_captures (.codomain hdomain hx hname hmem)
    | signature members =>
      simp only [Core.normalize, fails_bind_iff, not_fails_pure, and_false, exists_false,
        or_false] at h
      exact (Telescope.goesWrong_of_fails Core.normalizes_of_returns ih h
        (hfree.makes .signature) hτ).signature
    | lam param stamp body =>
      rw [Core.meaning_lam]
      simp only [Core.normalize, fails_bind_iff, not_fails_pure, not_fails_modifyGet,
        returns_modifyGet_iff, and_false, exists_false, or_false, false_or] at h
      obtain ⟨binder, c₁, hbind, h⟩ := h
      obtain ⟨rfl, rfl⟩ := Prod.mk.inj hbind
      refine (ih h (hfree.makes .body) (NormEnv.meaning_image_bind ?_ hτ)).body
      intro x hx hparam hmem
      exact hfree.not_captures (.body hx hparam hmem)
    | record members =>
      simp only [Core.normalize, fails_bind_iff, not_fails_pure, and_false, exists_false,
        or_false] at h
      exact (Core.goesWrong_of_mapM_fails Core.normalizes_of_returns ih h
        (hfree.makes .record) hτ).record
    | app rank type operator operand =>
      obtain ⟨h', ha⟩ := List.forall_mem_append.mp hτ
      obtain ⟨hty, ho⟩ := List.forall_mem_append.mp h'
      simp only [Core.normalize, fails_bind_iff] at h
      rcases h with h | ⟨operator', c₁, hoperator, h | ⟨operand', c₂, hoperand, h⟩⟩
      · exact (ih h (hfree.makes .operator) ho).operator _ _ _
      · have hoperator := Core.normalizes_of_returns hoperator
        exact (ih h (hfree.makes (.operand hoperator)) ha).operand _ _ _
      · have hoperator := Core.normalizes_of_returns hoperator
        have hoperand := Core.normalizes_of_returns hoperand
        split at h
        · have hinstance := by_contra fun hnot ↦
            hfree.not_captures (.reduct hoperator hoperand hnot)
          have hreduct : GoesWrong (Core.meaning υ _) :=
            ih h (hfree.makes (.reduct hoperator hoperand)) fun _ _ ↦ rfl
          have hfunction := hoperator.reduces (hfree.makes .operator) ho
          rw [Core.meaning_lam] at hfunction
          have hargument := hoperand.reduces (hfree.makes (.operand hoperator)) ha
          have hsteps : Reduces (.app rank (type.meaning τ) _ _) _ :=
            Reduces.app rank .refl hfunction hargument
          exact .of_reduces (hsteps.tail (hinstance.par_beta υ _ _)) hreduct
        · rename_i hstuck
          simp only [fails_bind_iff, not_fails_pure, and_false, exists_false, or_false] at h
          exact (ih h (hfree.makes (.appType hoperator hstuck hoperand)) hty).appType _ _ _
    | proj rank type operator index =>
      obtain ⟨hty, ho⟩ := List.forall_mem_append.mp hτ
      simp only [Core.normalize, fails_bind_iff] at h
      rcases h with h | ⟨operator', c₁, hoperator, h⟩
      · exact (ih h (hfree.makes .projected) ho).projected _ _ _
      · have hoperator := Core.normalizes_of_returns hoperator
        split at h
        · split at h
          · simp at h
          · rename_i hnone
            have hsteps : Reduces (.proj rank (type.meaning τ) _ index) _ :=
              Reduces.proj rank index .refl (hoperator.reduces (hfree.makes .projected) ho)
            exact ⟨_, hsteps, .range _ _ (Core.endsBefore_meaningMembers hnone υ)⟩
        · rename_i hstuck
          simp only [fails_bind_iff, not_fails_pure, and_false, exists_false, or_false] at h
          exact (ih h (hfree.makes (.projType hoperator hstuck)) hty).projType _ _ _

end Normalization

/-! ### The prelude -/

namespace Prelude

/-- The context that programs are checked in. -/
def ctx : Ctx := ⟨checkerEnv⟩

/-- What the names of the prelude stand for; all other names are unknown. -/
def images : Ref → Nameless := named (NormEnv.image ctx.values)

/-- A name of the prelude is a base type or an operation. -/
theorem get?_env {x : String} {judgement : Classified Value} (h : Env.get? env x = some judgement) :
    (x ∈ baseTypes ∧ judgement = baseType) ∨ ∃ op, judgement = operation op := by
  obtain ⟨before, after, henv, -⟩ := List.lookup_eq_some_iff.mp h
  have hmem : (x, judgement) ∈ env := by simp [henv]
  change (x, judgement) ∈ [("++", operation .concat), ("concat", operation .concat),
    ("*", operation .times), ("times", operation .times), ("-", operation .minus),
    ("minus", operation .minus), ("+", operation .plus), ("plus", operation .plus),
    ("string", baseType), ("int", baseType)] at hmem
  simp only [List.mem_cons, Prod.mk.injEq, List.not_mem_nil, or_false] at hmem
  simp only [baseTypes, List.mem_cons, List.not_mem_nil, or_false]
  grind

/-- A name is a base type, which stands for itself, or an operation, or it is not bound. -/
theorem lookup_cases (x : String) :
    (x ∈ baseTypes ∧ Env.get? ctx.vars x = some ⟨1, .univ 0, .var x⟩ ∧
        Env.get? Session.withPrelude.runtimeEnv x = some .absent) ∨
      (∃ op, Env.get? ctx.vars x =
          some ⟨0, (operation op).type, .const (.host (.binary op))⟩ ∧
        Env.get? Session.withPrelude.runtimeEnv x = some (.host (.binary op))) ∨
      x ∉ baseTypes ∧ Env.get? ctx.vars x = none := by
  simp only [ctx, checkerEnv, Session.runtimeEnv, Session.withPrelude, Env.get?_mapBindings]
  cases h : Env.get? env x with
  | none =>
    refine .inr (.inr ⟨fun hx ↦ ?_, rfl⟩)
    simp only [baseTypes, List.mem_cons, List.not_mem_nil, or_false] at hx
    rcases hx with rfl | rfl <;> cases h
  | some judgement =>
    rcases get?_env h with ⟨hx, rfl⟩ | ⟨op, rfl⟩
    · exact .inl ⟨hx, rfl, rfl⟩
    · exact .inr (.inl ⟨op, rfl, rfl⟩)

theorem images_of_get? {x : String} {judgement : Classified Core}
    (h : Env.get? ctx.vars x = some judgement) :
    images (.free x) = judgement.term.nameless [] := by
  rw [images, named, Ctx.image_values_of_get? h]

theorem images_of_unbound {x : String} (h : Env.get? ctx.vars x = none) :
    images (.free x) = .var (.free x) := by
  rw [images, named, Ctx.image_values_of_unbound h]
  rfl

theorem images_base {x : String} (hx : x ∈ baseTypes) : images (.free x) = .var (.free x) := by
  simp only [baseTypes, List.mem_cons, List.not_mem_nil, or_false] at hx
  rcases hx with rfl | rfl <;> rfl

theorem operandType_mem (op : BinaryOp) : operandType op ∈ baseTypes := by
  cases op <;> simp [operandType, baseTypes]

theorem runtimeEnv_denotes : Env.Denotes Session.withPrelude.runtimeEnv images := by
  intro x hx
  rcases lookup_cases x with ⟨hbase, -, hget⟩ | ⟨op, hvalue, hget⟩ | ⟨hbase, hvalue⟩
  · rw [images_base hbase]
    exact .mk hget (.absent (by simp [form?, hbase]))
  · rw [images_of_get? hvalue]
    exact .mk hget (.operation op)
  · rw [images_of_unbound hvalue] at hx
    exact absurd (.unbound hbase) hx

theorem meaning_operation (op : BinaryOp) :
    (operation op).type.meaning images = (operation op).type.nameless [] := by
  rw [Core.meaning, operationType_eq]
  simp only [Nameless.subst, lift, images_base (operandType_mem op)]
  rfl

/-- The prelude is well typed. -/
theorem interprets : ctx.Interprets images .empty where
  resolves x := by
    rcases lookup_cases x with ⟨-, hvalue, -⟩ | ⟨op, hvalue, -⟩ | ⟨-, hvalue⟩
    · rw [Ctx.image_values_of_get? hvalue]
      exact .refl
    · rw [Ctx.image_values_of_get? hvalue, images_of_get? hvalue]
      exact .refl
    · rw [Ctx.image_values_of_unbound hvalue]
      exact .refl
  typed x judgement hget := by
    rw [images_of_get? hget]
    rcases lookup_cases x with ⟨hbase, hvalue, -⟩ | ⟨op, hvalue, -⟩ | ⟨-, hvalue⟩
    · obtain rfl := Option.some.inj (hvalue.symm.trans hget)
      exact ⟨.base hbase, .univ 0⟩
    · obtain rfl := Option.some.inj (hvalue.symm.trans hget)
      have hoperand (Γ : Assignment) : HasType Γ (.var (.free (operandType op))) (.univ 0) :=
        .base (operandType_mem op)
      rw [meaning_operation]
      refine ⟨.const rfl, ?_⟩
      rw [operationType_eq]
      exact .quant _ (hoperand _) (.quant _ (hoperand _) (hoperand _))
    · cases hvalue.symm.trans hget
  unbound x hget := by
    rcases lookup_cases x with ⟨-, hvalue, -⟩ | ⟨op, hvalue, -⟩ | ⟨hbase, -⟩
    · cases hvalue.symm.trans hget
    · cases hvalue.symm.trans hget
    · rw [images_of_unbound hget]
      exact .unbound hbase
  base _ hx := images_base hx

theorem base_ne_anonymous {x : String} (hx : x ∈ baseTypes) : x ≠ anonymous := by
  rintro rfl
  simp [baseTypes, anonymous] at hx

theorem base_ne_generatedName {x : String} (hx : x ∈ baseTypes) (k : Nat) :
    x ≠ generatedName k := by
  rintro rfl
  have hhead := head?_generatedName k
  simp only [baseTypes, List.mem_cons, List.not_mem_nil, or_false] at hx
  rcases hx with hx | hx <;> simp [hx] at hhead

/-- A name of the prelude stands for itself or for an operation. -/
theorem image_values_cases {x : String} (hx : Env.maps ctx.values x = true) :
    (x ∈ baseTypes ∧ NormEnv.image ctx.values x = .var x) ∨
      ∃ op, NormEnv.image ctx.values x = .const (.host (.binary op)) := by
  rcases lookup_cases x with ⟨hbase, hvalue, -⟩ | ⟨op, hvalue, -⟩ | ⟨-, hvalue⟩
  · exact .inl ⟨hbase, Ctx.image_values_of_get? hvalue⟩
  · exact .inr ⟨op, Ctx.image_values_of_get? hvalue⟩
  · simp [Env.maps, Ctx.get?_values, hvalue] at hx

/-- The names that normalization makes are left to it by the prelude. -/
theorem values_tame (L : String → Prop) : NormEnv.Tame L 0 ctx.values := by
  refine ⟨⟨fun x hx y hy ↦ ?_, fun x hx _ ↦ ?_⟩, fun x hx _ hL ↦ ?_⟩
  · rcases image_values_cases hx with ⟨-, himage⟩ | ⟨op, himage⟩
    · obtain rfl : y = x := by simpa [himage, Core.freeNames] using hy
      exact hx
    · simp [himage, Core.freeNames] at hy
  · rcases image_values_cases hx with ⟨hbase, himage⟩ | ⟨op, himage⟩
    · rw [himage]
      exact Core.namesBelow_var_iff.mpr ⟨base_ne_anonymous hbase,
        fun k hk ↦ absurd hk (base_ne_generatedName hbase k)⟩
    · rw [himage]
      exact ⟨by simp [Core.names], by simp [Core.names]⟩
  · rcases image_values_cases hx with ⟨-, himage⟩ | ⟨op, himage⟩
    · rw [himage]
      exact Core.segregates_var_iff.mpr hL
    · rw [himage]
      simp [Core.Segregates, Core.names]

end Prelude

/-! ### Safety -/

theorem Core.normalForm_ne_error {t : Core} (h : ¬ GoesWrong (t.meaning Prelude.images))
    (hfree : (Call.core Prelude.ctx.values t 0).CaptureFree) (fuel : Nat) (cause : BadProjection) :
    t.normalForm fuel Prelude.ctx.values ≠ .error (.error cause) := by
  intro hfails
  have himage (x : String) : Prelude.images (.free x) =
      (NormEnv.image Prelude.ctx.values x).meaning .var :=
    ((NormEnv.image Prelude.ctx.values x).meaning_var).symm
  exact h (Core.normalize_failsWrong fuel hfails hfree fun x _ ↦ himage x)

theorem evaluate_fails_host {judgement : Classified Core} (hrank : judgement.rank = 0)
    (h : ¬ GoesWrong (judgement.term.meaning Prelude.images)) {fuel : Nat} {journal : Journal}
    {cause : RuntimeError}
    (hfails : (evaluate fuel Session.withPrelude.runtimeEnv judgement).outcome journal =
      .error (.error cause)) : ∃ e, cause = .host e := by
  rw [evaluate, if_pos hrank] at hfails
  exact Core.eval_fails_host hfails Prelude.runtimeEnv_denotes h

/-- A plain term is normalized in the prelude without capture. -/
theorem Core.Plain.captureFree {t : Core} (h : t.Plain) :
    (Call.core Prelude.ctx.values t 0).CaptureFree :=
  Call.Tame.captureFree (by simp [OriginalLabels])
    ⟨Prelude.values_tame fun _ ↦ False, h.tame 0⟩

/-- What an accepted program is elaborated to can be derived with moves that were computed. If it
can be derived with moves that are hygienic, the program is safe: no normalization of its type or of
its term that captures nothing ends in a bad projection, and at run time only operations of the host
fail. -/
theorem Term.accepted_safe {σ κ : Type} (host : Host σ κ) {p : Term}
    (hp : ∀ m ∈ p.mentions, m.IsLiteral) {state : Progress σ} {c : Classified Core}
    (h : (checkProgram host Prelude.checkerEnv p).outcome state = .ok c) :
    Derivable (Move.Computed host.fuel) (Infers · Prelude.ctx p c) ∧
      (Derivable Move.Hygienic (Infers · Prelude.ctx p c) →
        (∀ t, t = c.type ∨ t = c.term → (Call.core Prelude.ctx.values t 0).CaptureFree →
          ∀ fuel cause, t.normalForm fuel Prelude.ctx.values ≠ .error (.error cause)) ∧
        (c.rank = 0 → ∀ fuel journal cause,
          (evaluate fuel Session.withPrelude.runtimeEnv c).outcome journal = .error (.error cause) →
            ∃ e, cause = .host e)) := by
  refine ⟨Term.derivable_of_checkProgram hp h, fun ⟨moves, hinfers, hm⟩ ↦ ?_⟩
  have htyped := hinfers.sound hm Prelude.interprets
  obtain ⟨n, htype⟩ := htyped.type
  constructor
  · rintro t (rfl | rfl) hfree fuel cause
    · exact Core.normalForm_ne_error htype.not_goesWrong hfree fuel cause
    · exact Core.normalForm_ne_error htyped.term.not_goesWrong hfree fuel cause
  · intro hrank fuel journal cause hfails
    exact evaluate_fails_host hrank htyped.term.not_goesWrong hfails

/-- The identity, applied to a number. -/
theorem Term.accepted_safe_identity :
    let p : Term := .app (.lam "x" (.var "x")) (Prelude.int 5)
    ∃ c, (checkProgram (Host.withoutImports 20) Prelude.checkerEnv p).outcome ⟨(), .empty⟩ = .ok c ∧
      (∀ t, t = c.type ∨ t = c.term →
        ∀ fuel cause, t.normalForm fuel Prelude.ctx.values ≠ .error (.error cause)) ∧
      ∀ fuel journal cause,
        (evaluate fuel Session.withPrelude.runtimeEnv c).outcome journal = .error (.error cause) →
          ∃ e, cause = .host e := by
  intro p
  let int := Core.var "int"
  let c : Classified Core := ⟨0, int, .app 0 (.quant .universal 0 int anonymous int)
    (.lam "x" (some 0) (.var "x")) (.const (.int 5))⟩
  have haccepted : (checkProgram (Host.withoutImports 20) Prelude.checkerEnv p).outcome
      ⟨(), .empty⟩ = .ok c := by
    cbv
  have hp : ∀ m ∈ p.mentions, m.IsLiteral := by
    intro m hm
    simp only [p, Prelude.int, Term.mentions, List.cons_append, List.nil_append, List.mem_cons,
      List.not_mem_nil, or_false] at hm
    rcases hm with rfl | rfl | rfl
    · trivial
    · trivial
    · exact .int 5
  have hmoves : Derivable Move.Hygienic (Infers · Prelude.ctx p c) := by
    refine ⟨_, .appliedLam (.mk rfl (.literal (.int 5))
      (.infer (@Infers.var _ _ ⟨0, int, .const (.int 5)⟩ rfl)) rfl), ?_⟩
    -- The types and the number are in normal form, and the anonymous name is not mentioned.
    have hweaken : anonymous ∉ int.freeNames := by decide
    have hname : "x" ≠ anonymous := by decide
    simp only [List.forall_mem_append, List.forall_mem_cons]
    exact ⟨⟨by simp, by simp⟩, .refl, .refl, hname, .refl, hweaken, by simp⟩
  obtain ⟨hnormal, hrun⟩ := (Term.accepted_safe _ hp haccepted).2 hmoves
  refine ⟨c, haccepted, fun t ht ↦ hnormal t ht ?_, hrun rfl⟩
  rcases ht with rfl | rfl
  · exact Core.Plain.captureFree (.of_names (by decide))
  · exact Core.Plain.captureFree (.of_names (by decide))

/-- `S l` captures the parameter `l`, since the labels of a record type are not renamed: it is the
type of `r0`, and `coerce` has any type. -/
def Term.coercion : Term :=
  let S := Term.typedLam "T" (.univ 0)
    (.signature (.cons "l" (.univ 0) (.cons "m" (.var "T") .nil)))
  let g := Term.anno
    (.quant .universal .unbounded (some "T") (.arrow (.app (.var "S") (.var "T")) (.var "T")))
    (.lam "T" (.lam "r" (.access (.var "r") "m")))
  let r0 := Term.anno (.signature (.cons "l" (.univ 0) (.cons "m" (.var "l") .nil)))
    (.record (.cons "l" (.var "int") (.cons "m" (Prelude.int 5) .nil)))
  let coerce := Term.anno (.quant .universal .unbounded (some "A") (.var "A"))
    (.lam "l" (.app (.app (.var "g") (.var "l")) (.var "r0")))
  let call := Term.app (.app (.var "coerce") (.arrow (.var "int") (.var "int"))) (Prelude.int 3)
  .letIn "S" S (.letIn "g" g (.letIn "r0" r0 (.letIn "coerce" coerce call)))

/-- The number that was applied as a function, if this is how an evaluation ends. -/
def appliedInt? : Outcome RuntimeError Value → Option Int
  | .error (.error (.notAFunction (.int n))) => some n
  | _ => none

theorem eq_error_of_appliedInt? {outcome : Outcome RuntimeError Value} {n : Int}
    (h : appliedInt? outcome = some n) : outcome = .error (.error (.notAFunction (.int n))) := by
  unfold appliedInt? at h
  split at h
  · injection h with h
    rw [h]
  · cases h

/-- Not every accepted program is safe: in `coercion`, a number is applied as a function. -/
theorem Term.coercion_goes_wrong :
    ∃ c, (checkProgram (Host.withoutImports 50) Prelude.checkerEnv Term.coercion).outcome
        ⟨(), .empty⟩ = .ok c ∧ c.rank = 0 ∧
      (evaluate 50 Session.withPrelude.runtimeEnv c).outcome .empty =
        .error (.error (.notAFunction (.int 5))) := by
  have hrun : ((checkProgram (Host.withoutImports 50) Prelude.checkerEnv
      Term.coercion).outcome ⟨(), .empty⟩).toOption.any (fun c ↦ c.rank == 0 &&
        appliedInt? ((evaluate 50 Session.withPrelude.runtimeEnv c).outcome .empty) == some 5) =
      true := by
    decide +kernel
  obtain ⟨c, hc, htest⟩ := Run.exists_eq_ok_of_any hrun
  rw [Bool.and_eq_true, beq_iff_eq, beq_iff_eq] at htest
  exact ⟨c, hc, htest.1, eq_error_of_appliedInt? htest.2⟩

end RankedTT
