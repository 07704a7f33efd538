import RankedTT.Prelude
import RankedTT.Proofs.KnownAnswers
import RankedTT.Typing.Resolver

/-!
Checking a term against the type that was inferred for it. Where the type of a part can only be
inferred, checking infers it again and compares. Annotated terms, lambdas, let bindings and records
have rules of their own for checking, which take the types of parameters and members from the
expected type. The two ways agree if they make the same bindings: the domain of the function type is
what the annotation of the parameter was, and the types of members are what their definitions have,
provided that normalizing these types once more does not change them.

The rules differ by design for the application of a lambda. Inference binds the parameter to the
argument, or checks the argument against the annotation; checking has to infer the argument, and
knows no more of the parameter than the type that it finds.
-/

set_option autoImplicit false
set_option relaxedAutoImplicit false

namespace RankedTT

open Run

section

variable {σ κ : Type}

/-! ### Rules that confirm what they infer -/

/-- Against the type of the judgement, and against the normal form of this type, checking gives the
term of the judgement. -/
def Judged.Confirms (rule : Judged σ κ) (fuel : Nat) (ctx : Ctx) (judgement : Classified Core) :
    Prop :=
  ∀ target, target = judgement.type ∨ ctx.Normalizes fuel judgement.type target →
    rule.Checks ctx (judgement.typeOf.withTerm target) judgement.term

/-- What is inferred in the context has a type whose normal form is final, and checking confirms
it. -/
def Judged.Reliable (rule : Judged σ κ) (fuel : Nat) (ctx : Ctx) : Prop :=
  (rule.infer ctx).Yields fun found ↦
    ctx.Stabilizes fuel found.type ∧ rule.Confirms fuel ctx found

section Rules

variable {fuel : Nat} {ctx : Ctx} {self : Term} {judgement : Classified Core}
  {rule type term definition body argument function : Judged σ κ}
  {infer : Ctx → Check σ κ (Classified Core)}

theorem Judged.Confirms.logged (h : rule.Confirms fuel ctx judgement) :
    rule.logged.Confirms fuel ctx judgement :=
  fun target htarget _ _ hctx hexpected ↦
    Check.Gives.record.bind fun _ _ ↦ h target htarget hctx hexpected

/-- A type that is its own normal form is the only one to check against. -/
theorem Judged.Checks.confirms (h : rule.Checks ctx judgement.typeOf judgement.term)
    (hkeeps : ctx.Keeps fuel judgement.type) : rule.Confirms fuel ctx judgement := by
  rintro target (rfl | htarget) ctx' expected hctx hexpected
  · exact h hctx hexpected
  · have hsame := Core.sameAs_trans (hkeeps.unique htarget) hexpected.2.2
    exact h hctx ⟨hexpected.1, hexpected.2.1, hsame⟩

theorem Judged.Reliable.logged (h : rule.Reliable fuel ctx) : rule.logged.Reliable fuel ctx :=
  Judged.yields_logged_iff.mpr (h.mono fun _ ⟨hstable, hconfirms⟩ ↦ ⟨hstable, hconfirms.logged⟩)

theorem Judged.Confirms.congr {found : Classified Core} (h : rule.Confirms fuel ctx found)
    (hfound : SameAs judgement found) : rule.Confirms fuel ctx judgement := by
  have hkind := Classified.sameAs_symm (Classified.alike_typeOf hfound)
  rintro target (rfl | htarget) ctx' expected hctx hexpected
  · have hchecks := h found.type (.inl rfl) hctx (Classified.sameAs_trans hkind hexpected)
    exact hchecks.congr hfound.2.2
  · have hnormal := htarget.congr (SameAs.refl ctx) hfound.2.1 (SameAs.refl target)
    have htarget : SameAs (found.typeOf.withTerm target) expected :=
      ⟨hkind.1.trans hexpected.1, Core.sameAs_trans hkind.2.1 hexpected.2.1, hexpected.2.2⟩
    exact (h target (.inr hnormal) hctx htarget).congr hfound.2.2

/-- What a rule is known to infer, it confirms. -/
theorem Judged.Reliable.confirms (h : rule.Reliable fuel ctx)
    (hgives : (rule.infer ctx).Gives judgement) : rule.Confirms fuel ctx judgement := by
  intro target htarget ctx' expected hctx hexpected s
  obtain ⟨found, s₁, hreturns, hfound⟩ := hgives s
  exact (h s found s₁ hreturns).2.congr hfound target htarget hctx hexpected s

/-- Both types that are checked against have the same normal form. -/
theorem Ctx.Stabilizes.exists_normalForm {inferred target : Core}
    (h : ctx.Stabilizes fuel inferred)
    (htarget : target = inferred ∨ ctx.Normalizes fuel inferred target) :
    ∃ n, ctx.Normalizes fuel inferred n ∧ ctx.Normalizes fuel target n := by
  obtain rfl | htarget := htarget
  · obtain ⟨n, hn, -⟩ := h
    exact ⟨n, hn, hn⟩
  · exact ⟨target, htarget, h.keeps htarget⟩

/-! #### Inferred types -/

theorem checkByInference_confirms (hinfer : ∀ {ctx ctx' : Ctx}, SameAs ctx ctx' →
      (Mirror.indifferent σ κ).Mirrors (infer ctx) (infer ctx')) :
    (infer ctx).Yields fun judgement ↦ ctx.Stabilizes fuel judgement.type →
      (inferredRule fuel self infer).Confirms fuel ctx judgement := by
  intro s judgement s' hjudgement hstable target htarget ctx' expected hctx hexpected
  obtain ⟨n, hn, hn'⟩ := hstable.exists_normalForm htarget
  refine (Check.Gives.of_mirrors (hinfer hctx) _ _ _ hjudgement).bind fun found hfound ↦ ?_
  refine (Check.gives_convert hctx hn hn' (Classified.alike_typeOf hfound) hexpected).bind
    fun _ _ ↦ ?_
  exact .pure hfound.2.2

/-- The ranks of two universes are compared before the types are, with the same result. -/
theorem checkTypeByInference_gives {ctx' : Ctx} {target n : Core} {expected : Classified Core}
    (hctx : SameAs ctx ctx') (hinfer : (infer ctx').Gives judgement)
    (hn : ctx.Normalizes fuel judgement.type n) (htarget : ctx.Normalizes fuel target n)
    (hexpected : SameAs (judgement.typeOf.withTerm target) expected) :
    (checkTypeByInference fuel self infer ctx' expected : Check σ κ Core).Gives judgement.term := by
  refine hinfer.bind fun found hfound ↦ ?_
  refine (htarget.gives hctx hexpected.2.2).bind fun expectedType hexpectedType ↦ ?_
  refine (hn.gives hctx hfound.2.1).bind fun foundType hfoundType ↦ ?_
  have hrest : (do
      Check.convert fuel ctx'.values found.typeOf expected
      return found.term : Check σ κ Core).Gives judgement.term :=
    (Check.gives_convert hctx hn htarget (Classified.alike_typeOf hfound) hexpected).bind
      fun _ _ ↦ .pure hfound.2.2
  have hsame : SameAs expectedType foundType :=
    Core.sameAs_trans (Core.sameAs_symm hexpectedType) hfoundType
  cases hsame with
  | univ rank =>
    dsimp only
    rw [if_neg (by simp)]
    exact hrest
  | _ => exact hrest

theorem checkTypeByInference_confirms (hinfer : ∀ {ctx ctx' : Ctx}, SameAs ctx ctx' →
      (Mirror.indifferent σ κ).Mirrors (infer ctx) (infer ctx')) :
    (infer ctx).Yields fun judgement ↦ ctx.Stabilizes fuel judgement.type →
      (⟨self, infer, checkTypeByInference fuel self infer⟩ : Judged σ κ).Confirms fuel ctx
        judgement := by
  intro s judgement s' hjudgement hstable target htarget ctx' expected hctx hexpected
  obtain ⟨n, hn, hn'⟩ := hstable.exists_normalForm htarget
  exact checkTypeByInference_gives hctx (Check.Gives.of_mirrors (hinfer hctx) _ _ _ hjudgement)
    hn hn' hexpected

theorem quantifierRule_confirms
    (hinfer : ∀ {ctx ctx' : Ctx}, SameAs ctx ctx' →
      (Mirror.indifferent σ κ).Mirrors (infer ctx) (infer ctx'))
    (htype : (infer ctx).Yields fun judgement ↦ ∃ rank, judgement.type = .univ rank) :
    (infer ctx).Yields fun judgement ↦ ctx.Stabilizes fuel judgement.type →
      (quantifierRule fuel self infer).Confirms fuel ctx judgement := by
  intro s judgement s' hjudgement hstable target htarget ctx' expected hctx hexpected
  obtain ⟨n, hn, hn'⟩ := hstable.exists_normalForm htarget
  obtain ⟨rank, hrank⟩ := htype s judgement s' hjudgement
  have huniv : SameAs (.univ rank) n := (hn.keeps_univ rank).unique (hrank ▸ hn)
  refine (hn'.gives hctx hexpected.2.2).bind fun type htype ↦ ?_
  have htype : SameAs (.univ rank) type := Core.sameAs_trans huniv htype
  cases htype
  exact checkTypeByInference_gives hctx
    (Check.Gives.of_mirrors (hinfer hctx) _ _ _ hjudgement) hn hn' hexpected

theorem quantifyOver_isType {polarity : Polarity} {binder : Classified String} :
    (quantifyOver polarity binder body ctx).Yields fun judgement ↦
      ∃ rank, judgement.type = .univ rank := by
  refine .bind_any fun range ↦ ?_
  split
  · rename_i rank hrank
    exact .pure ⟨rank, hrank⟩
  · exact .fail

theorem quantifyOverClass_isType {polarity : Polarity} {name : String} {cls : Judged σ κ} :
    (quantifyOverClass fuel polarity name cls body ctx).Yields fun judgement ↦
      ∃ rank, judgement.type = .univ rank := by
  refine .bind_any fun found ↦ .bind_any fun cls ↦ ?_
  split
  · split
    · exact quantifyOver_isType.bind fun range hrange ↦ .pure hrange
    · exact .fail
  · exact .fail

theorem Bound.inferQuantifier_isType (host : Host σ κ) (bound : Bound) (polarity : Polarity)
    (name : Option String) :
    (bound.inferQuantifier host polarity name body ctx).Yields fun judgement ↦
      ∃ rank, judgement.type = .univ rank := by
  cases bound with
  | unbounded => exact .bind_any fun _ ↦ quantifyOver_isType
  | type type => exact .bind_any fun _ ↦ .bind_any fun _ ↦ quantifyOver_isType
  | typeClass cls =>
    refine .bind_any fun _ ↦ ?_
    cases name with
    | some name => exact quantifyOverClass_isType
    | none => exact .fail

/-! #### Universes and annotations -/

theorem universeRule_checks (rank : Nat) :
    ((universeRule fuel self rank : Judged σ κ).infer ctx).Yields fun judgement ↦
      ctx.Keeps fuel judgement.type → (universeRule fuel self rank : Judged σ κ).Checks ctx
        judgement.typeOf judgement.term := by
  refine .pure fun hkeeps ctx' expected hctx hexpected ↦ ?_
  refine (hkeeps.gives hctx hexpected.2.2).bind fun type htype ↦ ?_
  cases htype
  dsimp only
  rw [if_pos (by simp)]
  exact .pure (.univ rank)

theorem annotationRule_checks (htype : type.Mirrored (.indifferent σ κ) type)
    (hterm : term.Mirrored (.indifferent σ κ) term) :
    ((annotationRule fuel self type term).infer ctx).Yields fun judgement ↦
      ctx.Keeps fuel judgement.type → (annotationRule fuel self type term).Checks ctx
        judgement.typeOf judgement.term := by
  refine (htype.declare_gives anonymous).bind fun declared hdeclared ↦ ?_
  refine (hterm.checks declared.typeOf).bind fun elaborated helaborated ↦ ?_
  refine .pure fun hkeeps ctx' expected hctx hexpected ↦ ?_
  have hexpected : SameAs declared.typeOf expected := hexpected
  refine (hdeclared hctx).bind fun declared' hdeclared' ↦ ?_
  have hfound : SameAs declared.typeOf declared'.typeOf := Classified.alike_typeOf hdeclared'
  exact (Check.gives_convert hctx hkeeps hkeeps hfound hexpected).bind fun _ _ ↦
    helaborated hctx hexpected

/-! #### Functions -/

/-- A lambda against a function type that is its own normal form. -/
theorem checkLambda_gives {type? : Option (Judged σ κ)} {declared : Classified String}
    {found expected : Classified Core} {range function : Core} {ctx' : Ctx}
    (hctx : SameAs ctx ctx') (hfresh : ctx.isFresh declared.term = true)
    (htype : ∀ type ∈ type?, (type.declare fuel ctx' declared.term).Gives declared)
    (hkeeps : ctx.Keeps fuel (declared.arrow range))
    (hbody : body.Checks (ctx.bindDeclared declared) (found.typeOf.withTerm range) found.term)
    (hfunction : function.unstamped = (Core.lam declared.term none found.term).unstamped)
    (hexpected : SameAs (found.typeOf.withTerm (declared.arrow range)) expected) :
    (checkLambda fuel self declared.term type? body ctx' expected).Gives function := by
  obtain ⟨hrank, hkind, hterm⟩ := hexpected
  refine (hkeeps.gives hctx hterm).bind fun quantifier hquantifier ↦ ?_
  unfold Classified.arrow Core.quantify at hquantifier
  cases hquantifier with
  | @quant _ rank _ _ domain _ codomain hdomain hcodomain =>
    have hrest : (do
        let codomain ←
          if anonymous == anonymous || anonymous == declared.term then pure codomain
          else Check.subst (.single anonymous (.var declared.term)) codomain
        let body ← body.check (ctx'.bindDeclared ⟨declared.rank, domain, declared.term⟩)
          (expected.withTerm codomain)
        Check.lambda declared.term body : Check σ κ Core).Gives function := by
      have hinner : SameAs (ctx.bindDeclared declared)
          (ctx'.bindDeclared ⟨declared.rank, domain, declared.term⟩) :=
        Ctx.alike_bindDeclared hctx ⟨rfl, hdomain, rfl⟩
      refine (Check.Gives.pure hcodomain).bind fun codomain' hcodomain' ↦ ?_
      have hcheck : SameAs (found.typeOf.withTerm range) (expected.withTerm codomain') :=
        ⟨hrank, hkind, hcodomain'⟩
      exact (hbody hinner hcheck).bind fun elaborated helaborated ↦
        .lambda hfunction helaborated
    refine (Check.gives_ensureFresh hctx hfresh).bind fun _ _ ↦ ?_
    cases type? with
    | none => exact hrest
    | some type =>
      refine (htype type rfl).bind fun declared' hdeclared' ↦ ?_
      have hfound : SameAs declared.typeOf declared'.typeOf := Classified.alike_typeOf hdeclared'
      have hdomain : SameAs declared.typeOf ⟨declared.rank + 1, .univ declared.rank, domain⟩ :=
        Classified.alike_isType _ hdomain
      exact (Check.gives_convert hctx hkeeps.domain hkeeps.domain hfound hdomain).bind
        fun _ _ ↦ hrest

/-- The codomain of the type that is inferred is the normal form of the type of the body. -/
theorem typedLambdaRule_checks {param : String} (htype : type.Mirrored (.indifferent σ κ) type)
    (hbody : (type.declare fuel ctx param).Yields fun declared ↦
      body.Reliable fuel (ctx.bindDeclared declared)) :
    ((typedLambdaRule fuel self param type body).infer ctx).Yields fun judgement ↦
      ctx.Keeps fuel judgement.type → (typedLambdaRule fuel self param type body).Checks ctx
        judgement.typeOf judgement.term := by
  refine Check.yields_ensureFresh.bind fun _ hfresh ↦ ?_
  refine ((htype.declare_gives param).and ((type.declare_term ctx param).and hbody)).bind
    fun declared ⟨hdeclared, hname, hreliable⟩ ↦ ?_
  subst hname
  refine hreliable.bind fun found ⟨_, hconfirms⟩ ↦ ?_
  refine (Check.yields_normalizes found.type).bind fun bodyType hbodyType ↦ ?_
  dsimp only
  split
  · exact .bind (P := fun _ ↦ False) .fail fun _ h ↦ h.elim
  refine (Check.stamp_unstamped _).bind fun function hfunction ↦ ?_
  refine .pure fun hkeeps ctx' expected hctx hexpected ↦ ?_
  -- from here on, the lambda is checked against the type that was put together above
  have htype? : ∀ type' ∈ some type, (type'.declare fuel ctx' declared.term).Gives declared := by
    intro type' htype'
    obtain rfl := Option.some.inj htype'
    exact hdeclared hctx
  change (checkLambda fuel self declared.term (some type) body ctx' expected).Gives function
  exact checkLambda_gives hctx hfresh htype? hkeeps (hconfirms bodyType (.inr hbodyType)) hfunction
    hexpected

/-- The property holds of the context in which the name stands for the value of the definition. -/
def Judged.Defines (definition : Judged σ κ) (fuel : Nat) (ctx : Ctx) (name : String)
    (P : Ctx → Prop) : Prop :=
  (definition.infer ctx).Yields fun defined ↦
    (Check.normalized fuel ctx defined : Check σ κ (Classified Core)).Yields fun value ↦
      P (ctx.bind name value)

/-- Definitions are inferred, whether a type is expected or not. -/
theorem elaborateLet_gives {name : String}
    (hdefinition : definition.Mirrored (.indifferent σ κ) definition)
    (hbody : definition.Defines fuel ctx name (body.Reliable fuel)) :
    (elaborateLet fuel name definition body none ctx).Yields fun judgement ↦
      ∀ {ctx' : Ctx} {expected : Classified Core}, SameAs ctx ctx' →
        SameAs judgement.typeOf expected →
        (elaborateLet fuel name definition body (some expected) ctx').Gives judgement := by
  refine Check.yields_ensureFresh.bind fun _ hfresh ↦ ?_
  refine (hdefinition.infer_gives.and hbody).bind fun defined ⟨hdefined, hbody⟩ ↦ ?_
  refine ((Check.normalized_normalizes defined).and hbody).bind
    fun value ⟨⟨hrank, htype, hterm⟩, hbody⟩ ↦ ?_
  refine Yields.bind hbody fun found ⟨hstable, hconfirms⟩ ↦ ?_
  refine (Check.yields_normalizes found.type).bind fun result hresult ↦ ?_
  refine (Check.stamp_unstamped _).bind fun function hfunction ↦ ?_
  refine .pure fun {ctx' expected} hctx hexpected ↦ ?_
  refine (Check.gives_ensureFresh hctx hfresh).bind fun _ _ ↦ ?_
  refine (hdefined hctx).bind fun defined' hdefined' ↦ ?_
  refine (Check.gives_normalized hctx hdefined' hrank htype hterm).bind fun value' hvalue' ↦ ?_
  have hinner := Ctx.alike_bind hctx name hvalue'
  -- the type of the let binding is the normal form of the type of its body
  have hexpected : SameAs (found.typeOf.withTerm result) expected := hexpected
  have hensure : (body.ensure (ctx'.bind name value') (some expected)).Gives
      ⟨found.rank, result, found.term⟩ :=
    (hconfirms result (.inr hresult) hinner hexpected).bind fun elaborated helaborated ↦
      .inhabitant hexpected helaborated
  refine hensure.bind fun found' hfound' ↦ ?_
  refine ((hstable.keeps hresult).gives hinner hfound'.2.1).bind fun result' hresult' ↦ ?_
  refine (Check.Gives.lambda hfunction hfound'.2.2).bind fun function' hfunction' ↦ ?_
  refine .pure ⟨hfound'.1, hresult', ?_⟩
  dsimp only [Core.apply, Core.quantify, Classified.withTerm]
  rw [← hfound'.1, ← hdefined'.1]
  exact .app _ (.quant _ _ _ hdefined'.2.1 hresult') hfunction' hdefined'.2.2

theorem letRule_checks {name : String}
    (hdefinition : definition.Mirrored (.indifferent σ κ) definition)
    (hbody : definition.Defines fuel ctx name (body.Reliable fuel)) :
    ((letRule fuel self name definition body).infer ctx).Yields fun judgement ↦
      (letRule fuel self name definition body).Checks ctx judgement.typeOf judgement.term :=
  (elaborateLet_gives hdefinition hbody).mono fun _ h _ _ hctx hexpected ↦
    (h hctx hexpected).bind fun _ hjudgement ↦ .pure hjudgement.2.2

/-! #### Applied lambdas -/

/-- An applied lambda, if the lambda can be checked against the type of functions from the type of
the argument. -/
theorem checkAppliedLambda_gives {given : Classified Core} {rank : Nat} {result elaborated : Core}
    {ctx' : Ctx} (hctx : SameAs ctx ctx') (hgiven : (argument.infer ctx').Gives given)
    (hfunction : function.Checks ctx ⟨rank + 1, .univ rank, given.arrow result⟩ elaborated)
    {expected : Classified Core}
    (hexpected : SameAs (⟨rank + 1, .univ rank, result⟩ : Classified Core) expected) :
    (checkAppliedLambda function argument ctx' expected).Gives
      (.app rank (given.arrow result) elaborated given.term) := by
  refine hgiven.bind fun given' hgiven' ↦ ?_
  have harrow : SameAs (⟨rank + 1, .univ rank, given.arrow result⟩ : Classified Core)
      (expected.withTerm (given'.arrow expected.term)) := by
    refine ⟨hexpected.1, hexpected.2.1, ?_⟩
    unfold Classified.arrow Core.quantify Classified.withTerm
    rw [← hgiven'.1]
    exact .quant _ _ _ hgiven'.2.1 hexpected.2.2
  refine (hfunction hctx harrow).bind fun elaborated' helaborated' ↦ ?_
  refine (Check.Gives.inhabitant harrow helaborated').bind fun operator hoperator ↦ ?_
  refine .pure ?_
  unfold Core.apply
  rw [← hoperator.1]
  exact .app _ hoperator.2.1 hoperator.2.2 hgiven'.2.2

/-- The same is inferred for the body of a lambda, whether the parameter stands for the value of the
argument or nothing is known of it but its type. -/
def Judged.Uniform (body : Judged σ κ) (fuel : Nat) (ctx : Ctx) (param : String)
    (given : Classified Core) : Prop :=
  let declaredCtx := ctx.bindDeclared (given.withTerm param)
  (Check.normalized fuel ctx given : Check σ κ (Classified Core)).Yields fun value ↦
    (body.infer (ctx.bind param value)).Yields fun found ↦
      (body.infer declaredCtx).Gives found ∧ ∃ result,
        (ctx.bind param value).Normalizes fuel found.type result ∧
          declaredCtx.Normalizes fuel found.type result ∧ ctx.Keeps fuel (given.arrow result)

theorem appliedLambdaRule_checks {param : String} {lambda : Term}
    (hargument : argument.Mirrored (.indifferent σ κ) argument)
    (hbody : (argument.infer ctx).Yields fun given ↦
      body.Reliable fuel (ctx.bindDeclared (given.withTerm param)) ∧
        body.Uniform fuel ctx param given) :
    (elaborateLet fuel param argument body none ctx).Yields fun judgement ↦
      (appliedLambdaRule fuel self (lambdaRule fuel lambda param body) param body argument).Checks
        ctx judgement.typeOf judgement.term := by
  refine Check.yields_ensureFresh.bind fun _ hfresh ↦ ?_
  refine (hargument.infer_gives.and hbody).bind fun given ⟨hgiven, hreliable, huniform⟩ ↦ ?_
  refine Yields.bind huniform fun value hfound ↦ ?_
  refine Yields.bind hfound fun found ⟨hgives, n, hn, hn', hkeeps⟩ ↦ ?_
  refine (Check.yields_normalizes found.type).bind fun result hresult ↦ ?_
  refine (Check.stamp_unstamped _).bind fun function hfunction ↦ ?_
  refine .pure fun {ctx' expected} hctx hexpected ↦ ?_
  refine checkAppliedLambda_gives hctx (hgiven hctx) ?_ hexpected
  intro ctx' expected hctx hexpected
  have hsame : SameAs n result := hn.unique hresult
  have harrow := given.arrow_sameAs hsame
  have hrange := hn'.congr (SameAs.refl _) (SameAs.refl found.type) hsame
  have hkeeps := hkeeps.congr (SameAs.refl ctx) harrow harrow
  let declared := given.withTerm param
  change (checkLambda fuel lambda declared.term none body ctx' expected).Gives function
  exact checkLambda_gives hctx hfresh (by simp) hkeeps
    (hreliable.confirms hgives result (.inr hrange)) hfunction hexpected

/-- The type of the argument can be inferred and is the domain of the function, and the codomain is
its own normal form outside of the lambda. -/
def Judged.Fits (argument : Judged σ κ) (fuel : Nat) (ctx : Ctx) (function : Classified Core) :
    Prop :=
  ∃ given range, (argument.infer ctx).Gives given ∧ SameAs function.type (given.arrow range) ∧
    ctx.Keeps fuel range

theorem appliedTypedLambdaRule_checks
    (hfunction : (function.infer ctx).Yields fun found ↦
      ctx.Keeps fuel found.type ∧ function.Confirms fuel ctx found ∧ argument.Fits fuel ctx found)
    (hargument : argument.Reliable fuel ctx)
    (hmirrored : argument.Mirrored (.indifferent σ κ) argument) :
    (inferApplication fuel self function.logged argument ctx).Yields fun judgement ↦
      (appliedTypedLambdaRule fuel self function argument).Checks ctx judgement.typeOf
        judgement.term := by
  refine Yields.bind (Judged.yields_logged_iff.mpr hfunction)
    fun operator ⟨hkeeps, hconfirms, given, range, hgiven, htype, hrange⟩ ↦ ?_
  refine (Check.yields_normalizes operator.type).bind fun kind hkind ↦ ?_
  have hkind : SameAs (given.arrow range) kind :=
    Core.sameAs_trans (Core.sameAs_symm htype) (hkeeps.unique hkind)
  cases hkind with
  | @quant _ _ _ _ domain _ codomain hdomain hcodomain =>
    have hdomain' : SameAs given.typeOf ⟨given.rank + 1, .univ given.rank, domain⟩ :=
      Classified.alike_isType given.rank hdomain
    refine (hargument.confirms hgiven given.type (.inl rfl) (SameAs.refl ctx) hdomain').yields.bind
      fun operand hoperand ↦ ?_
    refine (Check.yields_normalizes codomain).bind fun result hresult ↦ ?_
    refine .pure fun {ctx' expected} hctx hexpected ↦ ?_
    have hrange' : SameAs range result :=
      hrange.unique (hresult.congr (SameAs.refl ctx) (Core.sameAs_symm hcodomain) (SameAs.refl _))
    have harrow : SameAs operator.type (given.arrow result) :=
      Core.sameAs_trans htype (given.arrow_sameAs hrange')
    have hlambda : function.Checks ctx ⟨operator.rank + 1, .univ operator.rank, given.arrow result⟩
        operator.term := by
      intro ctx' expected hctx hexpected
      refine hconfirms operator.type (.inl rfl) hctx ?_
      exact ⟨hexpected.1, hexpected.2.1, Core.sameAs_trans harrow hexpected.2.2⟩
    have hgiven' : (argument.infer ctx').Gives given := hgiven.mirror (hmirrored.infer hctx)
    refine (checkAppliedLambda_gives hctx hgiven' hlambda hexpected).congr ?_
    refine .app _ ?_ (SameAs.refl operator.term) (Core.sameAs_symm hoperand)
    exact .quant _ _ _ (Core.sameAs_symm hdomain)
      (Core.sameAs_trans (Core.sameAs_symm hcodomain) hrange')

/-! #### Records -/

/-- Checking the members against the types that were inferred for them gives their terms. -/
structure ConfirmsMembers (fuel : Nat) (members : List (String × Judged σ κ)) (ctx : Ctx)
    (earlier : Substitution) (found : Nat × Telescope × List Core) : Prop where
  length : found.2.1.length = members.length
  check : ∀ (position : Nat) {ctx' : Ctx} {earlier' : Substitution} {types : Telescope},
    SameAs ctx ctx' → AlikeBindings (fun _ ↦ True) earlier earlier' → SameAs found.2.1 types →
      (checkMembers fuel position ctx' earlier' members types).Gives found.2.2

theorem inferMembers_nil_confirms (earlier : Substitution) :
    (inferMembers fuel ctx earlier [] : Check σ κ _).Yields
      (ConfirmsMembers fuel ([] : List (String × Judged σ κ)) ctx earlier) :=
  .pure ⟨rfl, fun _ _ _ _ _ _ _ ↦ .pure .nil⟩

/-- The type of a member in the signature is the normal form of its inferred type. -/
theorem inferMembers_cons_confirms {name : String} {rest : List (String × Judged σ κ)}
    (hbody : body.Reliable fuel ctx)
    (hrest : body.Defines fuel ctx name fun inner ↦ ∀ earlier,
      (inferMembers fuel inner earlier rest).Yields (ConfirmsMembers fuel rest inner earlier))
    (earlier : Substitution) :
    (inferMembers fuel ctx earlier ((name, body) :: rest)).Yields
      (ConfirmsMembers fuel ((name, body) :: rest) ctx earlier) := by
  refine Check.yields_ensureFresh.bind fun _ hfresh ↦ ?_
  refine (hbody.and hrest).bind fun defined ⟨⟨hstable, hconfirms⟩, hrest⟩ ↦ ?_
  refine ((Check.normalized_normalizes defined).and hrest).bind
    fun value ⟨⟨hrank, htype, hterm⟩, hrest⟩ ↦ ?_
  obtain ⟨rank, type, term⟩ := value
  obtain rfl : rank = defined.rank := hrank
  have hkeeps : ctx.Keeps fuel type := hstable.keeps htype
  refine (Check.stamp_unstamped _).bind fun member hmember ↦ ?_
  refine (hrest _).bind fun ⟨rank, types, members⟩ hmembers ↦ .pure ⟨?_, ?_⟩
  · exact congrArg (· + 1) hmembers.length
  · intro position ctx' earlier' types' hctx hearlier htypes
    cases htypes with
    | @cons _ _ _ type' _ rest' htype' htypes =>
      rw [checkMembers, if_neg (by simp)]
      refine (Check.gives_ensureFresh hctx hfresh).bind fun _ _ ↦ ?_
      have hself : SameAs (defined.typeOf.withTerm type)
          ⟨defined.rank + 1, .univ defined.rank, type'⟩ := Classified.alike_isType _ htype'
      have hnormalized : (Check.normalized fuel ctx' ⟨defined.rank + 1, .univ defined.rank, type'⟩ :
          Check σ κ (Classified Core)).Gives (defined.typeOf.withTerm type) :=
        Check.gives_normalized hctx hself rfl (htype.keeps_univ defined.rank) hkeeps
      refine hnormalized.bind fun expected hexpected ↦ ?_
      refine (hconfirms type (.inr htype) hctx hexpected).bind fun elaborated helaborated ↦ ?_
      have hvalue : SameAs (⟨defined.rank, type, defined.term⟩ : Classified Core)
          ⟨defined.rank, expected.term, elaborated⟩ := ⟨rfl, hexpected.2.2, helaborated⟩
      have hnormalized : (Check.normalized fuel ctx' ⟨defined.rank, expected.term, elaborated⟩ :
          Check σ κ (Classified Core)).Gives ⟨defined.rank, type, term⟩ :=
        Check.gives_normalized hctx hvalue rfl hkeeps hterm
      refine hnormalized.bind fun value' hvalue' ↦ ?_
      refine (Check.Gives.subst hmember hearlier helaborated).bind fun member' hmember' ↦ ?_
      refine (hmembers.check (position + 1) (Ctx.alike_bind hctx name hvalue')
        (hearlier.insert name hvalue'.2.2) htypes).bind fun members' hmembers' ↦ ?_
      exact .pure (.cons hmember' hmembers')

theorem recordRule_checks {members : List (String × Judged σ κ)}
    (hmembers : (inferMembers fuel ctx [] members).Yields (ConfirmsMembers fuel members ctx [])) :
    ((recordRule fuel self members).infer ctx).Yields fun judgement ↦
      ctx.Keeps fuel judgement.type → (recordRule fuel self members).Checks ctx
        judgement.typeOf judgement.term := by
  refine hmembers.bind fun found hfound ↦ .pure fun hkeeps ctx' expected hctx hexpected ↦ ?_
  refine (hkeeps.gives hctx hexpected.2.2).bind fun kind hkind ↦ ?_
  cases hkind with
  | @signature _ types htypes =>
    dsimp only
    rw [← htypes.length_eq, if_neg (by simp [hfound.length])]
    refine (hfound.check 0 hctx .nil htypes).bind fun terms hterms ↦ ?_
    exact .pure (Core.Alike.record hterms)

end Rules

/-! ### All terms -/

/-- The mention of an identifier or of a constant. -/
def Mention.IsLocal : Mention → Prop
  | .identifier _ | .constant _ => True
  | .imported _ => False

section Terms

theorem Mention.IsLocal.known {host : Host σ κ} :
    {m : Mention} → m.IsLocal → m.Known (.indifferent σ κ) host host
  | .identifier _, _ => trivial
  | .constant content, _ => SameAs.refl content

mutual

/-- The type inferred for a term is its own normal form; if checking infers it again, then it is
enough that its normal form is its own normal form. The same holds of the parts that checking does
not infer again: bodies of lambdas and of let bindings, and members of records. An applied lambda
does not need to know more of its argument than the type. -/
def Term.Steady (host : Host σ κ) (ctx : Ctx) (self : Term) : Prop :=
  (self.infer host ctx).Yields (fun found ↦ ctx.Stabilizes host.fuel found.type ∧
    (self.isInferred = false → ctx.Keeps host.fuel found.type)) ∧
    match self with
    | .typedLam param type body =>
      (type.declare host ctx param).Yields fun declared ↦
        body.Steady host (ctx.bindDeclared declared)
    | .app (.lam param body) argument =>
      (argument.infer host ctx).Yields fun given ↦
        body.Steady host (ctx.bindDeclared (given.withTerm param)) ∧
          (body.judged host).Uniform host.fuel ctx param given
    | .app (.typedLam param type body) argument =>
      (Term.typedLam param type body).Steady host ctx ∧ argument.Steady host ctx ∧
        ((Term.typedLam param type body).infer host ctx).Yields
          ((argument.judged host).Fits host.fuel ctx)
    | .letIn name definition body =>
      (definition.judged host).Defines host.fuel ctx name fun inner ↦ body.Steady host inner
    | .record members => members.Steady host ctx
    | _ => True

/-- Each member is steady where the earlier ones stand for their values. -/
def Fields.Steady (host : Host σ κ) (ctx : Ctx) : Fields → Prop
  | .nil => True
  | .cons name body rest =>
    body.Steady host ctx ∧
      (body.judged host).Defines host.fuel ctx name fun inner ↦ rest.Steady host inner

end

section Steady

variable {host : Host σ κ} {ctx : Ctx} {t : Term}

theorem Term.Steady.settles (h : t.Steady host ctx) :
    ((t.rule host).infer ctx).Yields fun found ↦ ctx.Stabilizes host.fuel found.type ∧
      (t.isInferred = false → ctx.Keeps host.fuel found.type) := by
  unfold Term.Steady at h
  exact Judged.yields_logged_iff.mp h.1

/-- Terms that are checked by inference. -/
theorem Term.Steady.confirms (h : t.Steady host ctx)
    (hrule : ((t.rule host).infer ctx).Yields fun found ↦
      ctx.Stabilizes host.fuel found.type → (t.rule host).Confirms host.fuel ctx found) :
    (t.rule host).Reliable host.fuel ctx :=
  (h.settles.and hrule).mono fun _ ⟨⟨hstable, _⟩, hconfirms⟩ ↦ ⟨hstable, hconfirms hstable⟩

/-- Terms with a rule of their own for checking. -/
theorem Term.Steady.checks (h : t.Steady host ctx) (hterm : t.isInferred = false)
    (hrule : ((t.rule host).infer ctx).Yields fun found ↦ ctx.Keeps host.fuel found.type →
      (t.rule host).Checks ctx found.typeOf found.term) :
    (t.rule host).Reliable host.fuel ctx :=
  (h.settles.and hrule).mono fun _ ⟨⟨hstable, hkeeps⟩, hchecks⟩ ↦
    ⟨hstable, Judged.Checks.confirms (hchecks (hkeeps hterm)) (hkeeps hterm)⟩

theorem Term.rule_indifferent (h : ∀ m ∈ t.mentions, m.IsLocal) :
    (t.rule host).Mirrored (.indifferent σ κ) (t.rule host) :=
  t.rule_mirrored rfl fun m hm ↦ (h m hm).known

end Steady

mutual

theorem Term.rule_reliable (host : Host σ κ) :
    (t : Term) → (∀ m ∈ t.mentions, m.IsLocal) → {ctx : Ctx} → t.Steady host ctx →
      (t.rule host).Reliable host.fuel ctx
  | .univ rank, _, _, hsteady => hsteady.checks rfl (universeRule_checks rank)
  | .var name, h, _, hsteady =>
    hsteady.confirms (checkByInference_confirms (Term.rule_indifferent h).infer)
  | .lam param body, _, _, _ => .fail
  | .typedLam param type body, h, ctx, hsteady => by
    obtain ⟨htype, hbody⟩ := List.forall_mem_append.mp (List.forall_mem_cons.mp h).2
    refine hsteady.checks rfl (typedLambdaRule_checks (Term.rule_indifferent htype).logged ?_)
    unfold Term.Steady at hsteady
    exact hsteady.2.mono fun declared hsteady ↦ (body.rule_reliable host hbody hsteady).logged
  | .app operator argument, h, ctx, hsteady => by
    have happlication : ((Term.app operator argument).rule host).Mirrored (.indifferent σ κ) _ :=
      Term.rule_indifferent h
    obtain ⟨hoperator, hargument⟩ := List.forall_mem_append.mp h
    have hmirrored : (argument.judged host).Mirrored (.indifferent σ κ) (argument.judged host) :=
      (Term.rule_indifferent hargument).logged
    cases operator with
    | lam param body =>
      have hbody := (List.forall_mem_cons.mp hoperator).2
      refine hsteady.checks rfl ((appliedLambdaRule_checks hmirrored ?_).mono fun _ h _ ↦ h)
      unfold Term.Steady at hsteady
      exact hsteady.2.mono fun given ⟨hsteady, huniform⟩ ↦
        ⟨(body.rule_reliable host hbody hsteady).logged, huniform⟩
    | typedLam param type body =>
      have happlied := hsteady
      unfold Term.Steady at happlied
      obtain ⟨-, hlambda, hgiven, hfits⟩ := happlied
      have hfunction := (Term.typedLam param type body).rule_reliable host hoperator hlambda
      have hfunction := hlambda.settles.and (hfunction.and (Judged.yields_logged_iff.mp hfits))
      have hgiven := (argument.rule_reliable host hargument hgiven).logged
      refine hsteady.checks rfl
        ((appliedTypedLambdaRule_checks (hfunction.mono ?_) hgiven hmirrored).mono fun _ h _ ↦ h)
      exact fun found ⟨⟨_, hkeeps⟩, ⟨_, hconfirms⟩, hfits⟩ ↦ ⟨hkeeps rfl, hconfirms, hfits⟩
    | _ => exact hsteady.confirms (checkByInference_confirms happlication.infer)
  | .quant polarity bound name body, h, _, hsteady =>
    hsteady.confirms (quantifierRule_confirms (Term.rule_indifferent h).infer
      (bound.inferQuantifier_isType host polarity name))
  | .signature members, h, _, hsteady =>
    hsteady.confirms (checkTypeByInference_confirms (Term.rule_indifferent h).infer)
  | .record members, h, ctx, hsteady => by
    refine hsteady.checks rfl (recordRule_checks ?_)
    unfold Term.Steady at hsteady
    exact members.judged_confirm host h hsteady.2 []
  | .access operator name, h, _, hsteady =>
    hsteady.confirms (checkTypeByInference_confirms (Term.rule_indifferent h).infer)
  | .danglingAccess _, _, _, _ | .generic _ _, _, _, _ => .fail
  | .anno type term, h, _, hsteady => by
    obtain ⟨htype, hterm⟩ := List.forall_mem_append.mp h
    exact hsteady.checks rfl (annotationRule_checks (Term.rule_indifferent htype).logged
      (Term.rule_indifferent hterm).logged)
  | .letIn name definition body, h, ctx, hsteady => by
    obtain ⟨hdefinition, hbody⟩ := List.forall_mem_append.mp (List.forall_mem_cons.mp h).2
    refine hsteady.checks rfl
      ((letRule_checks (Term.rule_indifferent hdefinition).logged ?_).mono fun _ h _ ↦ h)
    unfold Term.Steady at hsteady
    exact hsteady.2.mono fun defined hvalue ↦ hvalue.mono fun value hsteady ↦
      (body.rule_reliable host hbody hsteady).logged
  | .const content, h, _, hsteady =>
    hsteady.confirms (checkByInference_confirms (Term.rule_indifferent h).infer)
  | .typeOf term, h, _, hsteady =>
    hsteady.confirms (checkByInference_confirms (Term.rule_indifferent h).infer)
  | .importing filename, h, _, _ => (h (.imported filename) (by simp [Term.mentions])).elim

theorem Fields.judged_confirm (host : Host σ κ) :
    (fields : Fields) → (∀ m ∈ fields.mentions, m.IsLocal) → {ctx : Ctx} →
      fields.Steady host ctx → (earlier : Substitution) →
      (inferMembers host.fuel ctx earlier (fields.judged host)).Yields
        (ConfirmsMembers host.fuel (fields.judged host) ctx earlier)
  | .nil, _, _, _, earlier => inferMembers_nil_confirms earlier
  | .cons name body rest, h, ctx, hsteady, earlier => by
    obtain ⟨hbody, hrest⟩ := List.forall_mem_append.mp (List.forall_mem_cons.mp h).2
    unfold Fields.Steady at hsteady
    refine inferMembers_cons_confirms (body.rule_reliable host hbody hsteady.1).logged ?_ earlier
    exact hsteady.2.mono fun defined hvalue ↦ hvalue.mono fun value hsteady ↦
      rest.judged_confirm host hrest hsteady

end

end Terms

end

/-- Whether a check ends with a rejection. -/
def isRejection {κ : Type} : Outcome (Refusal κ) Core → Bool
  | .error (.error (.rejected _)) => true
  | _ => false

theorem Term.exists_rejected {σ κ : Type} {host : Host σ κ} {ctx : Ctx} {t : Term} {s : Progress σ}
    (h : ((t.infer host ctx).outcome s).toOption.any (fun judgement ↦
      isRejection ((t.check host ctx judgement.typeOf).outcome s)) = true) :
    ∃ judgement, (t.infer host ctx).outcome s = .ok judgement ∧
      ∃ cause, (t.check host ctx judgement.typeOf).Fails s (.rejected cause) := by
  obtain ⟨judgement, hjudgement, hcheck⟩ := exists_eq_ok_of_any h
  refine ⟨judgement, hjudgement, ?_⟩
  unfold isRejection at hcheck
  split at hcheck
  · rename_i cause hcause
    exact ⟨cause, hcause⟩
  · cases hcheck

/-- That types are their own normal forms cannot be left out. In the type inferred for
`\(x : int). \(g : P). (g (\y. int) int).m`, normalization has renamed the binder `x` of `P` to
`_0`. Where checking normalizes that type again, `_0` is generated for the binder `g` of `P`, and
the label `_0` captures it. -/
theorem Term.inferred_type_recaptured :
    let host := Host.withoutImports 30
    let ctx : Ctx := ⟨Prelude.checkerEnv⟩
    let P : Term := .arrow (.quant .universal (.type (.univ 0)) (some "x") (.univ 0))
      (.quant .universal (.type (.univ 0)) (some "g")
        (.signature (.cons "_0" (.univ 0) (.cons "m" (.var "g") .nil))))
    let t : Term := .letIn "P" P (.typedLam "x" (.var "int") (.typedLam "g" (.var "P")
      (.access (.app (.app (.var "g") (.lam "y" (.var "int"))) (.var "int")) "m")))
    ∃ judgement, (t.infer host ctx).outcome ⟨(), .empty⟩ = .ok judgement ∧
      ∃ cause, (t.check host ctx judgement.typeOf).Fails ⟨(), .empty⟩ (.rejected cause) := by
  intro host ctx P t
  exact Term.exists_rejected (by decide +kernel)

end RankedTT
