import RankedTT.Proofs.Derivation
import RankedTT.Proofs.WellScoped

/-!
What the typing rules answer can be derived, with moves that were computed. A rule follows the
relation if each of its answers has a derivation; the steps that the rules have in common are
treated once, and each rule then puts its premises together.
-/

set_option autoImplicit false
set_option relaxedAutoImplicit false

namespace RankedTT

/-! ### The steps of the rules -/

section Steps

open Run

variable {σ κ : Type} {fuel : Nat} {ctx : Ctx}

theorem Check.stamp_unstamped (t : Core) :
    (stamp t : Check σ κ Core).Yields fun result ↦ result.unstamped = t.unstamped := by
  intro s result s' h
  obtain ⟨rfl, -⟩ := Prod.mk.inj (returns_modifyGet_iff.mp h)
  exact t.unstamped_assignStamps _

theorem Check.normalize_computed (t : Core) :
    (normalize fuel ctx t : Check σ κ Core).Yields fun n ↦
      (Move.normalize ctx t n).Computed fuel := by
  refine (yields_ofNormalizer (P := fun n ↦ t.normalForm fuel ctx.values = .ok n)
    fun n hn ↦ hn).bind fun n hn ↦ ?_
  exact (stamp_unstamped n).mono fun result hresult ↦ ⟨n, hn, hresult⟩

theorem Check.normalized_computed (judgement : Classified Core) :
    (normalized fuel ctx judgement : Check σ κ (Classified Core)).Yields fun value ↦
      ∃ type term, value = ⟨judgement.rank, type, term⟩ ∧
        (Move.normalize ctx judgement.type type).Computed fuel ∧
        (Move.normalize ctx judgement.term term).Computed fuel := by
  refine (normalize_computed judgement.type).bind fun type htype ↦ ?_
  refine (normalize_computed judgement.term).bind fun term hterm ↦ ?_
  exact .pure ⟨type, term, rfl, htype, hterm⟩

theorem Check.subst_computed (fuel : Nat) (images : Substitution) (t : Core) :
    (subst images t : Check σ κ Core).Yields fun result ↦
      (Move.substitute images t result).Computed fuel :=
  (stamp_unstamped _).mono fun _ h ↦ .inl h

/-- Judgements that are equal have normal forms that agree up to the names of binders. -/
theorem Classified.normalForms_of_isEqualTo {env : NormEnv} {lhs rhs : Classified Core}
    (h : Classified.isEqualTo fuel env lhs rhs = .ok true) :
    lhs.rank = rhs.rank ∧ ∃ n n', lhs.term.normalForm fuel env = .ok n ∧
      rhs.term.normalForm fuel env = .ok n' ∧ n.alphaEq n' = true := by
  unfold Classified.isEqualTo at h
  by_cases hrank : lhs.rank = rhs.rank
  · rw [if_neg (by simpa using hrank)] at h
    obtain ⟨lhsType, -, h⟩ := outcome_bind_eq_ok_iff.mp h
    obtain ⟨rhsType, -, h⟩ := outcome_bind_eq_ok_iff.mp h
    split at h
    · cases h
    · obtain ⟨n, hn, h⟩ := outcome_bind_eq_ok_iff.mp h
      obtain ⟨n', hn', h⟩ := outcome_bind_eq_ok_iff.mp h
      injection h with h
      exact ⟨hrank, n, n', hn, hn', h⟩
  · rw [if_pos (by simpa using hrank)] at h
    cases h

theorem Classified.isEqualTo_computed {found expected : Classified Core}
    (h : Classified.isEqualTo fuel ctx.values found expected = .ok true) :
    found.rank = expected.rank ∧ ∃ n n', (Move.normalize ctx found.term n).Computed fuel ∧
      (Move.normalize ctx expected.term n').Computed fuel ∧ n.alphaEq n' = true := by
  obtain ⟨hrank, n, n', hn, hn', halpha⟩ := Classified.normalForms_of_isEqualTo h
  exact ⟨hrank, n, n', ⟨n, hn, rfl⟩, ⟨n', hn', rfl⟩, halpha⟩

theorem Check.convert_computed (found expected : Classified Core) :
    (convert fuel ctx.values found expected : Check σ κ Unit).Yields fun _ ↦
      found.rank = expected.rank ∧ ∃ n n', (Move.normalize ctx found.term n).Computed fuel ∧
        (Move.normalize ctx expected.term n').Computed fuel ∧ n.alphaEq n' = true := by
  refine .bind_any fun _ ↦ ?_
  refine (yields_ofNormalizer (P := fun answer ↦
    found.mismatch? fuel ctx.values expected = .ok answer) fun _ h ↦ h).bind fun answer h ↦ ?_
  cases answer with
  | some cause => exact .fail
  | none =>
    obtain ⟨equal, hequal, h⟩ := outcome_bind_eq_ok_iff.mp h
    cases equal with
    | true => exact .pure (Classified.isEqualTo_computed hequal)
    | false =>
      obtain ⟨lhs, -, h⟩ := outcome_bind_eq_ok_iff.mp h
      obtain ⟨rhs, -, h⟩ := outcome_bind_eq_ok_iff.mp h
      cases h

theorem Check.lookup_eq (name : String) :
    (lookup ctx name : Check σ κ (Classified Core)).Yields fun judgement ↦
      Env.get? ctx.vars name = some judgement := by
  refine .ofExcept fun judgement h ↦ ?_
  unfold Env.lookup at h
  split at h
  · rename_i found hget
    injection h with h
    rwa [← h]
  · simp at h

/-- What a rule answers for a term can be derived. -/
structure Judged.Follows (rule : Judged σ κ) (fuel : Nat) (t : Term) : Prop where
  infer : ∀ ctx, (rule.infer ctx).Yields fun found ↦
    Derivable (Move.Computed fuel) (Infers · ctx t found)
  check : ∀ ctx expected, (rule.check ctx expected).Yields fun elaborated ↦
    Derivable (Move.Computed fuel) (Checks · ctx t expected elaborated)

variable {rule : Judged σ κ} {t : Term}

theorem Judged.Follows.logged (h : rule.Follows fuel t) : rule.logged.Follows fuel t where
  infer ctx := (h.infer ctx).bind fun _ hfound ↦ .bind_any fun _ ↦ .pure hfound
  check ctx expected := .bind_any fun _ ↦ h.check ctx expected

theorem Judged.Follows.declare (h : rule.Follows fuel t) (ctx : Ctx) (name : String) :
    (rule.declare fuel ctx name).Yields fun declared ↦ ∃ rank domain,
      declared = ⟨rank, domain, name⟩ ∧
        Derivable (Move.Computed fuel) (InfersType · ctx t rank domain) := by
  refine (h.infer ctx).bind fun found hfound ↦ ?_
  refine (Check.normalized_computed found).bind fun value ⟨type, term, hvalue, htype, hterm⟩ ↦ ?_
  refine .ofOption fun declared hdeclared ↦ ?_
  obtain ⟨rank, hrank, hdeclared⟩ := Classified.inhabitant?_eq_some_iff.mp hdeclared
  subst hvalue
  obtain rfl : type = .univ rank := hrank
  exact ⟨rank, term, hdeclared, hfound.step (by simp [htype, hterm]) fun _ h ↦ .mk h⟩

theorem Judged.Follows.ensure (h : rule.Follows fuel t) (ctx : Ctx)
    (expected : Option (Classified Core)) :
    (rule.ensure ctx expected).Yields fun found ↦
      Derivable (Move.Computed fuel) (Ensures · ctx t expected found) := by
  cases expected with
  | none => exact (h.infer ctx).mono fun found hfound ↦ hfound.map fun _ h ↦ .infer h
  | some expected =>
    refine (h.check ctx expected).bind fun elaborated helaborated ↦ ?_
    refine .ofOption fun found hfound ↦ ?_
    obtain ⟨rank, hrank, rfl⟩ := Classified.inhabitant?_eq_some_iff.mp hfound
    exact helaborated.map fun _ h ↦ .check hrank h

theorem checkByInference_follows {infer : Ctx → Check σ κ (Classified Core)}
    {expected : Classified Core} (hterm : t.isInferred = true)
    (h : (infer ctx).Yields fun found ↦ Derivable (Move.Computed fuel) (Infers · ctx t found)) :
    (checkByInference fuel infer ctx expected).Yields fun elaborated ↦
      Derivable (Move.Computed fuel) (Checks · ctx t expected elaborated) := by
  refine h.bind fun found hfound ↦ ?_
  refine (Check.convert_computed found.typeOf expected).bind
    fun _ ⟨hrank, n, n', hn, hn', halpha⟩ ↦ ?_
  refine .pure (hfound.step ?_ fun _ h ↦ .inferred hterm h hrank halpha)
  simpa using ⟨hn, hn'⟩

theorem checkTypeByInference_follows {infer : Ctx → Check σ κ (Classified Core)} {self : Term}
    {expected : Classified Core} (hterm : t.isInferred = true)
    (h : (infer ctx).Yields fun found ↦ Derivable (Move.Computed fuel) (Infers · ctx t found)) :
    (checkTypeByInference fuel self infer ctx expected).Yields fun elaborated ↦
      Derivable (Move.Computed fuel) (Checks · ctx t expected elaborated) :=
  checkTypeByInference_yields_of_found h fun _ hfound ↦
    checkByInference_follows hterm (.pure hfound)

theorem follows_of_infer {self : Term} {infer : Ctx → Check σ κ (Classified Core)}
    (hterm : t.isInferred = true)
    (h : ∀ ctx, (infer ctx).Yields fun found ↦
      Derivable (Move.Computed fuel) (Infers · ctx t found)) :
    (inferredRule fuel self infer).Follows fuel t where
  infer := h
  check ctx _ := checkByInference_follows hterm (h ctx)

end Steps

/-! ### The rules -/

section Rules

open Run

variable {σ κ : Type} {fuel : Nat} {self : Term}

theorem elaborateLet_follows {definition body : Judged σ κ} {d b : Term}
    (hdefinition : definition.Follows fuel d) (hbody : body.Follows fuel b) (name : String)
    (expected : Option (Classified Core)) (ctx : Ctx) :
    (elaborateLet fuel name definition body expected ctx).Yields fun found ↦
      Derivable (Move.Computed fuel) (Binds · ctx name d b expected found) := by
  refine Check.yields_ensureFresh.bind fun _ hfresh ↦ ?_
  refine (hdefinition.infer ctx).bind fun defined hdefined ↦ ?_
  refine (Check.normalized_computed defined).bind fun value ⟨type, term, hvalue, htype, hterm⟩ ↦ ?_
  subst hvalue
  refine (hbody.ensure _ expected).bind fun elaborated helaborated ↦ ?_
  refine (Check.normalize_computed elaborated.type).bind fun result hresult ↦ ?_
  refine (Check.stamp_unstamped _).bind fun function hfunction ↦ ?_
  refine .pure (hdefined.step₂ helaborated ?_ fun _ _ hd hb ↦ .mk hfresh hd hb hfunction)
  simp [htype, hterm, hresult]

theorem letRule_follows {definition body : Judged σ κ} {name : String} {d b : Term}
    (hdefinition : definition.Follows fuel d) (hbody : body.Follows fuel b) :
    (letRule fuel self name definition body).Follows fuel (.letIn name d b) where
  infer ctx := (elaborateLet_follows hdefinition hbody name none ctx).mono fun _ h ↦
    h.map fun _ h ↦ .letIn h
  check ctx expected := (elaborateLet_follows hdefinition hbody name expected ctx).bind fun _ h ↦
    .pure (h.map fun _ h ↦ .letIn h)

/-- The body of a lambda, once the expected function type and the parameter are known. -/
theorem lambdaBody_follows {body : Judged σ κ} {b : Term} (hbody : body.Follows fuel b) {ctx : Ctx}
    {param name : String} (hfresh : ctx.isFresh param = true) {expected : Classified Core}
    {rank : Nat} {domain codomain : Core}
    (hnormal : (Move.normalize ctx expected.term
      (.quant .universal rank domain name codomain)).Computed fuel) :
    (do
      let codomain ←
        if name == anonymous || name == param then pure codomain
        else Check.subst (.single name (.var param)) codomain
      let body ← body.check (ctx.bindDeclared ⟨rank, domain, param⟩) (expected.withTerm codomain)
      Check.lambda param body : Check σ κ Core).Yields fun function ↦
        Derivable (Move.Computed fuel)
          (ChecksLambda · ctx param b expected rank domain function) := by
  have hrest {range : Core}
      (hrange : (Move.substitute (.single name (.var param)) codomain range).Computed fuel) : (do
        let body ← body.check (ctx.bindDeclared ⟨rank, domain, param⟩) (expected.withTerm range)
        Check.lambda param body : Check σ κ Core).Yields fun function ↦
          Derivable (Move.Computed fuel)
          (ChecksLambda · ctx param b expected rank domain function) := by
    refine (hbody.check _ _).bind fun elaborated helaborated ↦ ?_
    refine (Check.stamp_unstamped _).mono fun function hfunction ↦ ?_
    exact helaborated.step (by simp [hnormal, hrange]) fun _ h ↦
      .mk name codomain hfresh h hfunction
  split
  · rename_i h
    rw [Bool.or_eq_true, beq_iff_eq, beq_iff_eq] at h
    refine Yields.bind (.pure ?_) fun range hrange ↦ hrest hrange
    exact .inr ⟨name, _, rfl, h.imp_right (by rintro rfl; rfl), rfl⟩
  · exact (Check.subst_computed fuel _ _).bind fun range hrange ↦ hrest hrange

theorem lambdaRule_follows {body : Judged σ κ} {param : String} {b : Term}
    (hbody : body.Follows fuel b) :
    (lambdaRule fuel self param body).Follows fuel (.lam param b) where
  infer _ := .fail
  check ctx expected := by
    refine (Check.normalize_computed expected.term).bind fun type htype ↦ ?_
    split
    · refine Check.yields_ensureFresh.bind fun _ hfresh ↦ ?_
      exact (lambdaBody_follows hbody hfresh htype).mono fun _ h ↦ h.map fun _ h ↦ .lam h
    · exact .fail
    · exact .fail

theorem typedLambdaRule_follows {type body : Judged σ κ} {param : String} {a b : Term}
    (htype : type.Follows fuel a) (hbody : body.Follows fuel b) :
    (typedLambdaRule fuel self param type body).Follows fuel (.typedLam param a b) where
  infer ctx := by
    unfold typedLambdaRule
    refine Check.yields_ensureFresh.bind fun _ hfresh ↦ ?_
    refine (htype.declare ctx param).bind fun declared ⟨rank, domain, hdeclared, hdomain⟩ ↦ ?_
    subst hdeclared
    refine (hbody.infer _).bind fun found hfound ↦ ?_
    refine (Check.normalize_computed found.type).bind fun bodyType hbodyType ↦ ?_
    dsimp only
    split
    · exact .bind (P := fun _ ↦ False) .fail fun _ h ↦ h.elim
    · rename_i hfree
      refine (Check.stamp_unstamped _).bind fun function hfunction ↦ ?_
      refine .pure (hdomain.step₂ hfound ?_ fun _ _ ha hb ↦
        .typedLam hfresh ha hb (by simpa using hfree) hfunction)
      simpa [Classified.withTerm] using hbodyType
  check ctx expected := by
    refine (Check.normalize_computed expected.term).bind fun quantifier hnormal ↦ ?_
    split
    · refine Check.yields_ensureFresh.bind fun _ hfresh ↦ ?_
      refine (htype.declare ctx param).bind fun declared ⟨rank, domain, hdeclared, hdomain⟩ ↦ ?_
      subst hdeclared
      refine (Check.convert_computed _ _).bind fun _ hcompared ↦ ?_
      obtain ⟨_, n, n', hn, hn', halpha⟩ := hcompared
      refine (lambdaBody_follows hbody hfresh hnormal).mono fun _ h ↦ ?_
      exact hdomain.step₂ h (by simpa using ⟨hn, hn'⟩) fun _ _ ha h ↦ .typedLam ha halpha h
    · exact .fail
    · exact .fail

theorem inferApplication_follows {operator argument : Judged σ κ} {f a : Term}
    (hoperator : operator.Follows fuel f) (hargument : argument.Follows fuel a)
    (hf : ∀ param body, f ≠ .lam param body) (ctx : Ctx) :
    (inferApplication fuel self operator argument ctx).Yields fun found ↦
      Derivable (Move.Computed fuel) (Infers · ctx (.app f a) found) := by
  unfold inferApplication
  refine (hoperator.infer ctx).bind fun function hfunction ↦ ?_
  refine (Check.normalize_computed function.type).bind fun type htype ↦ ?_
  split
  · rename_i rank domain name codomain
    refine (hargument.check ctx _).bind fun operand hoperand ↦ ?_
    have hrange : (Move.substitute (.single name operand) codomain
        (if name == anonymous then codomain else codomain.subst (.single name operand))).Computed
          fuel := by
      split
      · rename_i h
        exact .inr ⟨name, operand, rfl, .inl (beq_iff_eq.mp h), rfl⟩
      · exact .inl rfl
    dsimp only
    generalize (if name == anonymous then codomain
      else codomain.subst (.single name operand)) = range at hrange ⊢
    refine (Check.normalize_computed range).bind fun result hresult ↦ ?_
    refine .pure (hfunction.step₂ hoperand ?_ fun _ _ hf' ha ↦ .app range hf hf' ha)
    simp [htype, hrange, hresult]
  · exact .fail
  · exact .fail

theorem applicationRule_follows {operator argument : Judged σ κ} {f a : Term}
    (hoperator : operator.Follows fuel f) (hargument : argument.Follows fuel a)
    (hf : ∀ param body, f ≠ .lam param body) (happ : (Term.app f a).isInferred = true) :
    (applicationRule fuel self operator argument).Follows fuel (.app f a) where
  infer := inferApplication_follows hoperator hargument hf
  check ctx _ := checkByInference_follows happ (inferApplication_follows hoperator hargument hf ctx)

theorem checkAppliedLambda_follows {function argument : Judged σ κ} {f a : Term}
    (hfunction : function.Follows fuel f) (hargument : argument.Follows fuel a)
    (happ : (Term.app f a).isInferred = false) (ctx : Ctx) (expected : Classified Core) :
    (checkAppliedLambda function argument ctx expected).Yields fun elaborated ↦
      Derivable (Move.Computed fuel) (Checks · ctx (.app f a) expected elaborated) := by
  refine (hargument.infer ctx).bind fun found hfound ↦ ?_
  refine (hfunction.check ctx _).bind fun elaborated helaborated ↦ ?_
  refine Yields.bind (.ofOption fun operator hoperator ↦ hoperator) fun operator hoperator ↦ ?_
  obtain ⟨rank, hrank, rfl⟩ := Classified.inhabitant?_eq_some_iff.mp hoperator
  refine .pure (hfound.step₂ helaborated ?_ fun _ _ ha hf ↦ .appliedLambda happ ha hrank hf)
  simp

theorem quantifyOver_follows {body : Judged σ κ} {b : Term} (hbody : body.Follows fuel b)
    (polarity : Polarity) (binder : Classified String) (ctx : Ctx) :
    (quantifyOver polarity binder body ctx).Yields fun found ↦
      Derivable (Move.Computed fuel) (Quantifies · ctx polarity binder b found) := by
  refine (hbody.infer _).bind fun range hrange ↦ ?_
  split
  · rename_i rank hrank
    exact .pure (hrange.step (by simp) fun _ h ↦ .mk h hrank)
  · exact .fail

theorem inferClassBound_follows {cls body : Judged σ κ} {c b : Term} (hcls : cls.Follows fuel c)
    (hbody : body.Follows fuel b) (polarity : Polarity) (name : Option String) (ctx : Ctx) :
    (inferClassBound fuel polarity name cls body ctx).Yields fun found ↦
      Derivable (Move.Computed fuel)
        (Infers · ctx (.quant polarity (.typeClass c) name b) found) := by
  refine Check.yields_ensureFresh.bind fun _ hfresh ↦ ?_
  cases name with
  | none => exact .fail
  | some x =>
    refine (hcls.infer ctx).bind fun found hfound ↦ ?_
    refine (Check.normalized_computed found).bind fun cls ⟨type, term, hcls, htype, hterm⟩ ↦ ?_
    subst hcls
    split
    · rename_i rank domain param codomain hquant
      obtain rfl : type = _ := hquant
      split
      · refine (quantifyOver_follows hbody polarity _ _).bind fun range hrange ↦ ?_
        refine .pure (hfound.step₂ hrange ?_ fun _ _ hc hb ↦ .quantClass hfresh hc hb)
        simp [htype, hterm]
      · exact .fail
    · exact .fail

theorem quantifierRule_follows {infer : Ctx → Check σ κ (Classified Core)} {polarity : Polarity}
    {bound : Bound} {name : Option String} {b : Term}
    (h : ∀ ctx, (infer ctx).Yields fun found ↦
      Derivable (Move.Computed fuel) (Infers · ctx (.quant polarity bound name b) found)) :
    (quantifierRule fuel self infer).Follows fuel (.quant polarity bound name b) where
  infer := h
  check ctx expected := by
    refine .bind_any fun type ↦ ?_
    split
    · exact checkTypeByInference_follows rfl (h ctx)
    · exact .fail

theorem annotationRule_follows {type term : Judged σ κ} {a t : Term} (htype : type.Follows fuel a)
    (hterm : term.Follows fuel t) :
    (annotationRule fuel self type term).Follows fuel (.anno a t) where
  infer ctx := by
    refine (htype.declare ctx anonymous).bind fun declared ⟨rank, domain, hdeclared, hdomain⟩ ↦ ?_
    subst hdeclared
    refine (hterm.check ctx _).bind fun elaborated helaborated ↦ ?_
    exact .pure (hdomain.both helaborated fun _ _ ha ht ↦ .anno ha ht)
  check ctx expected := by
    refine (htype.declare ctx anonymous).bind fun declared ⟨rank, domain, hdeclared, hdomain⟩ ↦ ?_
    subst hdeclared
    refine (Check.convert_computed _ _).bind fun _ ⟨_, n, n', hn, hn', halpha⟩ ↦ ?_
    refine (hterm.check ctx expected).mono fun elaborated helaborated ↦ ?_
    exact hdomain.step₂ helaborated (by simpa using ⟨hn, hn'⟩) fun _ _ ha ht ↦ .anno ha halpha ht

theorem universeRule_follows (rank : Nat) :
    (universeRule fuel self rank : Judged σ κ).Follows fuel (.univ rank) where
  infer ctx := .pure ⟨[], .univ rank, by simp⟩
  check ctx expected := by
    refine (Check.normalize_computed expected.term).bind fun type htype ↦ ?_
    split
    · split
      · rename_i hrank
        rw [beq_iff_eq] at hrank
        subst hrank
        exact .pure ⟨_, .univ rank, by simp [htype]⟩
      · exact .fail
    · exact .fail

/-! ### Records -/

/-- Every field is judged by a rule that follows its term. -/
def Fields.Follow (host : Host σ κ) (fields : Fields) : Prop :=
  ∀ field ∈ fields.toList, (field.2.rule host).logged.Follows host.fuel field.2

theorem inferTelescope_follows {host : Host σ κ} (fields : Fields) (h : fields.Follow host)
    (ctx : Ctx) :
    (inferTelescope host.fuel ctx (fields.judged host)).Yields fun found ↦
      Derivable (Move.Computed host.fuel) (InfersTelescope · ctx fields found.1 found.2) := by
  match fields with
  | .nil => exact .pure ⟨[], .nil, by simp⟩
  | .cons name type rest =>
    obtain ⟨htype, hrest⟩ := List.forall_mem_cons.mp h
    refine Check.yields_ensureFresh.bind fun _ hfresh ↦ ?_
    refine (htype.declare ctx name).bind fun declared ⟨rank, domain, hdeclared, hdomain⟩ ↦ ?_
    subst hdeclared
    refine (inferTelescope_follows rest hrest _).bind fun found hfound ↦ ?_
    exact .pure (hdomain.step₂ hfound (by simp) fun _ _ ha hr ↦ .cons hfresh ha hr)

theorem inferSignature_follows {host : Host σ κ} {fields : Fields} (h : fields.Follow host)
    (ctx : Ctx) :
    (inferSignature host.fuel (fields.judged host) ctx).Yields fun found ↦
      Derivable (Move.Computed host.fuel) (Infers · ctx (.signature fields) found) :=
  (inferTelescope_follows fields h ctx).bind fun _ hfound ↦
    .pure (hfound.map fun _ h ↦ .signature h)

theorem inferMembers_follows {host : Host σ κ} (fields : Fields) (h : fields.Follow host)
    (ctx : Ctx) (earlier : Substitution) :
    (inferMembers host.fuel ctx earlier (fields.judged host)).Yields fun found ↦
      Derivable (Move.Computed host.fuel)
        (InfersMembers · ctx earlier fields found.1 found.2.1 found.2.2) := by
  match fields with
  | .nil => exact .pure ⟨[], .nil, by simp⟩
  | .cons name body rest =>
    obtain ⟨hbody, hrest⟩ := List.forall_mem_cons.mp h
    refine Check.yields_ensureFresh.bind fun _ hfresh ↦ ?_
    refine (hbody.infer ctx).bind fun defined hdefined ↦ ?_
    refine (Check.normalized_computed defined).bind
      fun value ⟨type, term, hvalue, htype, hterm⟩ ↦ ?_
    subst hvalue
    refine (Check.subst_computed host.fuel earlier defined.term).bind fun member hmember ↦ ?_
    refine (inferMembers_follows rest hrest _ _).bind fun found hfound ↦ ?_
    refine .pure ?_
    dsimp only
    exact hdefined.step₂ hfound (by simp [htype, hterm, hmember]) fun _ _ hd hr ↦
      .cons hfresh hd hr

theorem checkMembers_follows {host : Host σ κ} (fields : Fields) (h : fields.Follow host)
    (types : Telescope) (hlength : types.length = fields.length) (position : Nat) (ctx : Ctx)
    (earlier : Substitution) :
    (checkMembers host.fuel position ctx earlier (fields.judged host) types).Yields fun members ↦
      Derivable (Move.Computed host.fuel) (ChecksMembers · ctx earlier fields types members) := by
  match fields, types with
  | .nil, .nil => exact .pure ⟨[], .nil, by simp⟩
  | .nil, .cons .. => simp [Telescope.length, Fields.length] at hlength
  | .cons .., .nil => simp [Telescope.length, Fields.length] at hlength
  | .cons name body rest, .cons rank type label types =>
    obtain ⟨hbody, hrest⟩ := List.forall_mem_cons.mp h
    have hrestLength : types.length = rest.length := by
      simpa [Telescope.length, Fields.length] using hlength
    rw [Fields.judged, checkMembers]
    have hmembers (hname : name = label) : (do
        Check.ensureFresh ctx name
        let expected ← Check.normalized host.fuel ctx ⟨rank + 1, .univ rank, type⟩
        let elaborated ← (body.rule host).logged.check ctx expected
        let value ← Check.normalized host.fuel ctx ⟨rank, expected.term, elaborated⟩
        let member ← Check.subst earlier elaborated
        let members ← checkMembers host.fuel (position + 1) (ctx.bind name value)
          (Substitution.insert earlier name value.term) (rest.judged host) types
        return member :: members : Check σ κ (List Core)).Yields fun members ↦
          Derivable (Move.Computed host.fuel)
            (ChecksMembers · ctx earlier (.cons name body rest) (.cons rank type label types)
              members) := by
      subst hname
      refine Check.yields_ensureFresh.bind fun _ hfresh ↦ ?_
      refine (Check.normalized_computed _).bind
        fun expected ⟨kind, term, hexpected, hkind, hterm⟩ ↦ ?_
      subst hexpected
      refine (hbody.check ctx _).bind fun elaborated helaborated ↦ ?_
      refine (Check.normalized_computed _).bind
        fun value ⟨valueType, value', hvalue, hvalueType, hvalue'⟩ ↦ ?_
      subst hvalue
      refine (Check.subst_computed host.fuel earlier elaborated).bind fun member hmember ↦ ?_
      refine (checkMembers_follows rest hrest types hrestLength _ _ _).bind
        fun members hmembers ↦ ?_
      refine .pure (helaborated.step₂ hmembers ?_ fun _ _ he hr ↦ .cons hfresh he hr)
      simpa [hmember] using ⟨hkind, hterm, hvalueType, hvalue'⟩
    split
    · exact .bind (P := fun _ ↦ False) .fail fun _ h ↦ h.elim
    · rename_i hlabel
      exact hmembers (by simpa using hlabel)

theorem Fields.length_judged (host : Host σ κ) (fields : Fields) :
    (fields.judged host).length = fields.length := by
  cases fields with
  | nil => rfl
  | cons _ _ rest => simp [Fields.judged, Fields.length, rest.length_judged host]

theorem recordRule_follows {host : Host σ κ} {fields : Fields} (h : fields.Follow host) :
    (recordRule host.fuel self (fields.judged host)).Follows host.fuel (.record fields) where
  infer ctx := (inferMembers_follows fields h ctx []).bind fun _ hfound ↦
    .pure (hfound.map fun _ h ↦ .record h)
  check ctx expected := by
    refine (Check.normalize_computed expected.term).bind fun type htype ↦ ?_
    split
    · rename_i types
      split
      · exact .bind (P := fun _ ↦ False) .fail fun _ h ↦ h.elim
      · rename_i hlength
        rw [Fields.length_judged, bne_iff_ne, not_not] at hlength
        refine (checkMembers_follows fields h types hlength 0 ctx []).bind fun _ hmembers ↦ ?_
        exact .pure (hmembers.step (by simp [htype]) fun _ h ↦ .record h)
    · exact .fail

theorem selects_of_findMember? {record : Classified Core} {name : String} {types : Telescope}
    {position : Nat} {earlier : Substitution} {member : Classified Nat}
    (h : findMember? record name position earlier types = some member) :
    ∃ σ type, member.type = type.subst σ ∧
      Selects record name position earlier types σ member.rank type member.term := by
  match types with
  | .nil => simp [findMember?] at h
  | .cons rank type label rest =>
    unfold findMember? at h
    split at h
    · rename_i hlabel
      rw [beq_iff_eq] at hlabel
      subst hlabel
      obtain rfl := Option.some.inj h
      exact ⟨earlier, type, rfl, .here⟩
    · rename_i hlabel
      obtain ⟨σ, type', htype, hselects⟩ := selects_of_findMember? h
      exact ⟨σ, type', htype, .there (by simpa using hlabel) hselects⟩

theorem inferAccess_follows {operator : Judged σ κ} {name : String} {f : Term}
    (hoperator : operator.Follows fuel f) (ctx : Ctx) :
    (inferAccess fuel operator name ctx).Yields fun found ↦
      Derivable (Move.Computed fuel) (Infers · ctx (.access f name) found) := by
  refine (hoperator.infer ctx).bind fun found hfound ↦ ?_
  refine (Check.normalize_computed found.type).bind fun type htype ↦ ?_
  split
  · rename_i types
    dsimp only
    split
    · rename_i member hmember
      obtain ⟨earlier, type, hmemberType, hselects⟩ := selects_of_findMember? hmember
      have hsubst : (Move.substitute earlier type member.type).Computed fuel := by
        rw [hmemberType]
        exact .inl rfl
      refine (Check.normalize_computed member.type).bind fun result hresult ↦ ?_
      refine .pure ?_
      dsimp only [Core.project]
      exact hfound.step (by simp [htype, hsubst, hresult]) fun _ h ↦
        .access member.type h hselects
    · exact .fail
  · exact .fail

end Rules

/-! ### All terms -/

/-- A mention of an identifier or of a literal. -/
def Mention.IsLiteral : Mention → Prop
  | .identifier _ => True
  | .constant content => content.IsLiteral
  | .imported _ => False

section Terms

variable {σ κ : Type}

/-- The same, or an import that the host never answers. -/
def Mention.Derives (host : Host σ κ) : Mention → Prop
  | .identifier _ => True
  | .constant content => content.IsLiteral
  | .imported filename => (host.resolve filename).Yields fun _ ↦ False

theorem Mention.IsLiteral.derives {host : Host σ κ} : {m : Mention} → m.IsLiteral → m.Derives host
  | .identifier _, _ => trivial
  | .constant _, h => h

mutual

theorem Term.rule_follows (host : Host σ κ) :
    (t : Term) → (∀ m ∈ t.mentions, m.Derives host) → (t.rule host).Follows host.fuel t
  | .univ rank, _ => universeRule_follows rank
  | .var name, _ => by
    refine follows_of_infer rfl fun ctx ↦ ?_
    exact (Check.lookup_eq name).bind fun _ hget ↦ .pure ⟨[], .var hget, by simp⟩
  | .lam param body, h =>
    lambdaRule_follows (body.rule_follows host (List.forall_mem_cons.mp h).2).logged
  | .typedLam param type body, h => by
    obtain ⟨htype, hbody⟩ := List.forall_mem_append.mp (List.forall_mem_cons.mp h).2
    exact typedLambdaRule_follows (type.rule_follows host htype).logged
      (body.rule_follows host hbody).logged
  | .app operator argument, h => by
    obtain ⟨hoperator, hargument⟩ := List.forall_mem_append.mp h
    have hfunction := operator.rule_follows host hoperator
    have hargument := (argument.rule_follows host hargument).logged
    cases operator with
    | lam param body =>
      have hbody := (body.rule_follows host (List.forall_mem_cons.mp hoperator).2).logged
      exact ⟨fun ctx ↦ (elaborateLet_follows hargument hbody param none ctx).mono fun _ h ↦
        h.map fun _ h ↦ .appliedLam h, checkAppliedLambda_follows hfunction hargument rfl⟩
    | typedLam param type body =>
      exact ⟨inferApplication_follows hfunction.logged hargument (by simp),
        checkAppliedLambda_follows hfunction hargument rfl⟩
    | _ => exact applicationRule_follows hfunction.logged hargument (by simp) rfl
  | .quant polarity bound name body, h => by
    obtain ⟨h, hbody⟩ := List.forall_mem_append.mp h
    have hbody := (body.rule_follows host hbody).logged
    exact quantifierRule_follows
      (bound.inferQuantifier_follows host (List.forall_mem_append.mp h).2 hbody polarity name)
  | .signature members, h =>
    ⟨inferSignature_follows (members.follow host h), fun ctx _ ↦
      checkTypeByInference_follows rfl (inferSignature_follows (members.follow host h) ctx)⟩
  | .record members, h => recordRule_follows (members.follow host h)
  | .access operator name, h => by
    have hoperator := (operator.rule_follows host (List.forall_mem_cons.mp h).2).logged
    exact ⟨inferAccess_follows hoperator, fun ctx _ ↦
      checkTypeByInference_follows rfl (inferAccess_follows hoperator ctx)⟩
  | .danglingAccess _, _ | .generic _ _, _ => ⟨fun _ ↦ .fail, fun _ _ ↦ .fail⟩
  | .anno type term, h => by
    obtain ⟨htype, hterm⟩ := List.forall_mem_append.mp h
    exact annotationRule_follows (type.rule_follows host htype).logged
      (term.rule_follows host hterm).logged
  | .letIn name definition body, h => by
    obtain ⟨hdefinition, hbody⟩ := List.forall_mem_append.mp (List.forall_mem_cons.mp h).2
    exact letRule_follows (definition.rule_follows host hdefinition).logged
      (body.rule_follows host hbody).logged
  | .const content, h => by
    have hcontent : content.IsLiteral := h (.constant content) (by simp [Term.mentions])
    exact follows_of_infer rfl fun ctx ↦ .pure ⟨[], .literal hcontent, by simp⟩
  | .typeOf term, h => by
    refine follows_of_infer rfl fun ctx ↦ ?_
    exact ((term.rule_follows host h).logged.infer ctx).bind fun _ hfound ↦
      .pure (hfound.map fun _ h ↦ .typeOf h)
  | .importing filename, h => by
    have hnone : (host.resolve filename).Yields fun _ ↦ False :=
      h (.imported filename) (by simp [Term.mentions])
    have hrule (ctx : Ctx) : ((importRule host (.importing filename) filename).infer ctx).Yields
        fun _ ↦ False :=
      (Run.Yields.mapError hnone).bind fun _ h ↦ h.elim
    exact ⟨fun ctx ↦ (hrule ctx).mono fun _ h ↦ h.elim, fun ctx _ ↦ (hrule ctx).bind fun _ h ↦
      h.elim⟩

theorem Bound.inferQuantifier_follows (host : Host σ κ) :
    (bound : Bound) → (∀ m ∈ bound.mentions, m.Derives host) → {body : Judged σ κ} → {b : Term} →
      body.Follows host.fuel b → (polarity : Polarity) → (name : Option String) → (ctx : Ctx) →
      (bound.inferQuantifier host polarity name body ctx).Yields fun found ↦
        Derivable (Move.Computed host.fuel) (Infers · ctx (.quant polarity bound name b) found)
  | .unbounded, _, _, _, hbody, polarity, _, ctx => by
    refine Check.yields_ensureFresh.bind fun _ hfresh ↦ ?_
    exact (quantifyOver_follows hbody polarity _ ctx).mono fun _ h ↦
      h.map fun _ h ↦ .quantUnbounded hfresh h
  | .type type, h, _, _, hbody, polarity, name, ctx => by
    have htype := (type.rule_follows host h).logged
    refine Check.yields_ensureFresh.bind fun _ hfresh ↦ ?_
    refine (htype.declare ctx (boundName name)).bind fun declared ⟨rank, domain, hd, hdomain⟩ ↦ ?_
    subst hd
    exact (quantifyOver_follows hbody polarity _ ctx).mono fun _ h ↦
      hdomain.both h fun _ _ ha hb ↦ .quantType hfresh ha hb
  | .typeClass cls, h, _, _, hbody, polarity, name, ctx =>
    inferClassBound_follows (cls.rule_follows host h).logged hbody polarity name ctx

theorem Fields.follow (host : Host σ κ) :
    (fields : Fields) → (∀ m ∈ fields.mentions, m.Derives host) → fields.Follow host
  | .nil, _ => by simp [Fields.Follow, Fields.toList]
  | .cons name term rest, h => by
    obtain ⟨hterm, hrest⟩ := List.forall_mem_append.mp (List.forall_mem_cons.mp h).2
    exact List.forall_mem_cons.mpr ⟨(term.rule_follows host hterm).logged, rest.follow host hrest⟩

end

/-- What is inferred for a program can be derived from moves that were computed. -/
theorem Term.yields_derivable {host : Host σ κ} {p : Term} (hp : ∀ m ∈ p.mentions, m.Derives host)
    (ctx : Ctx) : (p.infer host ctx).Yields fun found ↦
      Derivable (Move.Computed host.fuel) (Infers · ctx p found) :=
  (p.rule_follows host hp).logged.infer ctx

theorem Term.derivable_of_checkProgram {host : Host σ κ} {env : Env (Classified Core)} {p : Term}
    (hp : ∀ m ∈ p.mentions, m.IsLiteral) {state : Progress σ} {found : Classified Core}
    (h : (checkProgram host env p).outcome state = .ok found) :
    Derivable (Move.Computed host.fuel) (Infers · ⟨env⟩ p found) := by
  obtain ⟨state', hreturns⟩ := Run.outcome_eq_ok_iff.mp h
  exact Term.yields_derivable (fun m hm ↦ (hp m hm).derives) ⟨env⟩ state found state' hreturns

end Terms

end RankedTT
