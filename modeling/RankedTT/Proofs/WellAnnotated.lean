import RankedTT.Proofs.Annotations
import RankedTT.Proofs.WellScoped

/-!
Elaborated terms are well annotated. Every typing rule that builds an application or a projection
has looked at the type of its operator, which is recorded as it was found: the normal form of the
operator's type, the type of a let binding as a function, the arrow that an applied lambda is
checked against, the type of a class, or the record type that a member is projected from. So from
well annotated contexts, expected types, constants and imports, inference and checking make well
annotated terms and types.
-/

set_option autoImplicit false
set_option relaxedAutoImplicit false

namespace RankedTT

open Run

variable {σ κ : Type}

/-! ### The steps of the typing rules -/

/-- Type and term of a judgement are well annotated. -/
def Classified.WellAnnotated (judgement : Classified Core) : Prop :=
  judgement.type.isWellAnnotated = true ∧ judgement.term.isWellAnnotated = true

/-- The types and the values of all bindings are well annotated. -/
def Ctx.WellAnnotated (ctx : Ctx) : Prop := ∀ entry ∈ ctx.vars, entry.2.WellAnnotated

namespace Ctx.WellAnnotated

variable {ctx : Ctx}

theorem bind (h : ctx.WellAnnotated) (name : String) {judgement : Classified Core}
    (hjudgement : judgement.WellAnnotated) : (ctx.bind name judgement).WellAnnotated :=
  List.forall_mem_cons.mpr ⟨hjudgement, h⟩

theorem bindDeclared (h : ctx.WellAnnotated) {declared : Classified String}
    (htype : declared.type.isWellAnnotated = true) : (ctx.bindDeclared declared).WellAnnotated :=
  h.bind _ ⟨htype, rfl⟩

theorem values (h : ctx.WellAnnotated) : ctx.values.WellAnnotated := by
  refine .of_entries fun entry hentry ↦ ?_
  obtain ⟨found, hfound, rfl⟩ := List.mem_map.mp hentry
  exact (h found hfound).2

end Ctx.WellAnnotated

namespace Check

variable {ctx : Ctx} {fuel : Nat}

theorem annotates_stamp {t : Core} (h : t.isWellAnnotated = true) :
    (stamp t : Check σ κ Core).Yields fun n ↦ n.isWellAnnotated = true := by
  intro s n s' hn
  obtain ⟨rfl, -⟩ := Prod.mk.inj (returns_modifyGet_iff.mp hn)
  exact (Core.isWellAnnotated_assignStamps t _).trans h

theorem annotates_lambda {param : String} {body : Core} (h : body.isWellAnnotated = true) :
    (lambda param body : Check σ κ Core).Yields fun n ↦ n.isWellAnnotated = true :=
  annotates_stamp h

theorem annotates_subst {images : Substitution} {t : Core} (himages : images.WellAnnotated)
    (h : t.isWellAnnotated = true) :
    (subst images t : Check σ κ Core).Yields fun n ↦ n.isWellAnnotated = true :=
  annotates_stamp (t.isWellAnnotated_subst h images himages)

theorem annotates_normalize (hctx : ctx.WellAnnotated) {t : Core} (h : t.isWellAnnotated = true) :
    (normalize fuel ctx t : Check σ κ Core).Yields fun n ↦ n.isWellAnnotated = true := by
  refine (yields_ofNormalizer fun n hn ↦ ?_).bind fun n hn ↦ annotates_stamp hn
  obtain ⟨c, hc⟩ := Core.normalizes_of_normalForm hn
  exact hc.isWellAnnotated hctx.values h

theorem annotates_normalized (hctx : ctx.WellAnnotated) {judgement : Classified Core}
    (h : judgement.WellAnnotated) :
    (normalized fuel ctx judgement : Check σ κ (Classified Core)).Yields
      Classified.WellAnnotated := by
  refine (annotates_normalize hctx h.1).bind fun type htype ↦ ?_
  refine (annotates_normalize hctx h.2).bind fun term hterm ↦ ?_
  exact .pure ⟨htype, hterm⟩

theorem annotates_lookup (hctx : ctx.WellAnnotated) (name : String) :
    (lookup ctx name : Check σ κ (Classified Core)).Yields Classified.WellAnnotated := by
  refine .ofExcept fun judgement h ↦ ?_
  exact hctx _ (Ctx.mem_vars_of_get? (Ctx.get?_of_lookup h))

end Check

/-- In well annotated contexts and against well annotated types, the answers of a rule are well
annotated. -/
structure Judged.WellAnnotated (rule : Judged σ κ) : Prop where
  infer : ∀ ctx : Ctx, ctx.WellAnnotated → (rule.infer ctx).Yields Classified.WellAnnotated
  check : ∀ ctx : Ctx, ctx.WellAnnotated → ∀ expected : Classified Core,
    expected.term.isWellAnnotated = true →
      (rule.check ctx expected).Yields fun t ↦ t.isWellAnnotated = true

section Steps

variable {ctx : Ctx} {rule : Judged σ κ} {fuel : Nat}

theorem Judged.WellAnnotated.logged (h : rule.WellAnnotated) : rule.logged.WellAnnotated where
  infer ctx hctx := by
    refine (h.infer ctx hctx).bind fun judgement hjudgement ↦ ?_
    exact .bind_any fun _ ↦ .pure hjudgement
  check ctx hctx expected hexpected := .bind_any fun _ ↦ h.check ctx hctx expected hexpected

theorem Judged.WellAnnotated.ensure (h : rule.WellAnnotated) (hctx : ctx.WellAnnotated)
    {expected : Option (Classified Core)}
    (hexpected : ∀ judgement ∈ expected, judgement.term.isWellAnnotated = true) :
    (rule.ensure ctx expected).Yields Classified.WellAnnotated := by
  cases expected with
  | none => exact h.infer ctx hctx
  | some expected =>
    have hterm := hexpected expected rfl
    refine (h.check ctx hctx expected hterm).bind fun elaborated helaborated ↦ ?_
    refine .ofOption fun judgement hjudgement ↦ ?_
    obtain ⟨_, -, rfl⟩ := Classified.inhabitant?_eq_some_iff.mp hjudgement
    exact ⟨hterm, helaborated⟩

theorem Judged.WellAnnotated.declare (h : rule.WellAnnotated) (hctx : ctx.WellAnnotated)
    (name : String) :
    (rule.declare fuel ctx name).Yields fun declared ↦
      declared.type.isWellAnnotated = true := by
  refine (h.infer ctx hctx).bind fun found hfound ↦ ?_
  refine (Check.annotates_normalized hctx hfound).bind fun judgement hjudgement ↦ ?_
  refine .ofOption fun declared hdeclared ↦ ?_
  obtain ⟨_, -, rfl⟩ := Classified.inhabitant?_eq_some_iff.mp hdeclared
  exact hjudgement.2

theorem checkByInference_annotates {infer : Ctx → Check σ κ (Classified Core)}
    {expected : Classified Core} (h : (infer ctx).Yields Classified.WellAnnotated) :
    (checkByInference fuel infer ctx expected).Yields fun t ↦ t.isWellAnnotated = true := by
  refine h.bind fun found hfound ↦ ?_
  exact .bind_any fun _ ↦ .pure hfound.2

theorem checkTypeByInference_annotates {term : Term} {infer : Ctx → Check σ κ (Classified Core)}
    {expected : Classified Core} (h : (infer ctx).Yields Classified.WellAnnotated) :
    (checkTypeByInference fuel term infer ctx expected).Yields
      fun t ↦ t.isWellAnnotated = true :=
  checkTypeByInference_yields_of_found h fun _ hfound ↦ checkByInference_annotates (.pure hfound)

theorem wellAnnotated_of_infer {self : Term} {infer : Ctx → Check σ κ (Classified Core)}
    (h : ∀ ctx : Ctx, ctx.WellAnnotated → (infer ctx).Yields Classified.WellAnnotated) :
    (inferredRule fuel self infer).WellAnnotated where
  infer := h
  check ctx hctx _ _ := checkByInference_annotates (h ctx hctx)

end Steps

/-! ### Functions -/

section Functions

variable {ctx : Ctx} {fuel : Nat} {self : Term} {name param : String}
  {definition body operator argument function : Judged σ κ}

theorem Core.isWellAnnotated_quant_iff {polarity : Polarity} {rank : Nat} {domain codomain : Core}
    {name : String} :
    (Core.quant polarity rank domain name codomain).isWellAnnotated = true ↔
      domain.isWellAnnotated = true ∧ codomain.isWellAnnotated = true := by
  simp [Core.isWellAnnotated]

/-- A function type is recorded on the operator. -/
theorem Core.isWellAnnotated_app {rank rank' : Nat} {name : String}
    {domain codomain operator operand : Core}
    (htype : (Core.quant .universal rank' domain name codomain).isWellAnnotated = true)
    (hoperator : operator.isWellAnnotated = true) (hoperand : operand.isWellAnnotated = true) :
    (Core.app rank (.quant .universal rank' domain name codomain) operator
      operand).isWellAnnotated = true := by
  simp only [Core.isWellAnnotated, Bool.and_eq_true] at htype ⊢
  exact ⟨⟨⟨rfl, htype⟩, hoperator⟩, hoperand⟩

theorem elaborateLet_annotates (hdefinition : definition.WellAnnotated)
    (hbody : body.WellAnnotated) (hctx : ctx.WellAnnotated)
    {expected : Option (Classified Core)}
    (hexpected : ∀ judgement ∈ expected, judgement.term.isWellAnnotated = true) :
    (elaborateLet fuel name definition body expected ctx).Yields Classified.WellAnnotated := by
  unfold elaborateLet
  refine .bind_any fun _ ↦ ?_
  refine (hdefinition.infer ctx hctx).bind fun defined hdefined ↦ ?_
  refine (Check.annotates_normalized hctx hdefined).bind fun value hvalue ↦ ?_
  have hinner := hctx.bind name hvalue
  refine (hbody.ensure hinner hexpected).bind fun elaborated helaborated ↦ ?_
  refine (Check.annotates_normalize hinner helaborated.1).bind fun result hresult ↦ ?_
  refine (Check.annotates_lambda helaborated.2).bind fun lambda hlambda ↦ ?_
  refine .pure ⟨hresult, Core.isWellAnnotated_app ?_ hlambda hdefined.2⟩
  exact Core.isWellAnnotated_quant_iff.mpr ⟨hdefined.1, hresult⟩

theorem letRule_wellAnnotated (hdefinition : definition.WellAnnotated)
    (hbody : body.WellAnnotated) : (letRule fuel self name definition body).WellAnnotated where
  infer ctx hctx := elaborateLet_annotates hdefinition hbody hctx (by simp)
  check ctx hctx expected hexpected := by
    refine (elaborateLet_annotates hdefinition hbody hctx (by simpa)).bind fun found hfound ↦ ?_
    exact .pure hfound.2

theorem checkLambda_annotates {type? : Option (Judged σ κ)} (hbody : body.WellAnnotated)
    (hctx : ctx.WellAnnotated) {expected : Classified Core}
    (hexpected : expected.term.isWellAnnotated = true) :
    (checkLambda fuel self param type? body ctx expected).Yields
      fun t ↦ t.isWellAnnotated = true := by
  unfold checkLambda
  refine (Check.annotates_normalize hctx hexpected).bind fun type htype ↦ ?_
  split
  · rename_i rank domain name codomain
    let declared : Classified String := ⟨rank, domain, param⟩
    simp only [Core.isWellAnnotated, Bool.and_eq_true] at htype
    have hinner : (ctx.bindDeclared declared).WellAnnotated := hctx.bindDeclared htype.1
    refine .bind_any fun _ ↦ ?_
    have hrest {codomain : Core} (h : codomain.isWellAnnotated = true) : (do
        let body ← body.check (ctx.bindDeclared declared) (expected.withTerm codomain)
        Check.lambda param body : Check σ κ Core).Yields fun t ↦ t.isWellAnnotated = true := by
      refine (hbody.check _ hinner _ h).bind fun elaborated helaborated ↦ ?_
      exact Check.annotates_lambda helaborated
    have hrange : (do
        let codomain ←
          if name == anonymous || name == param then pure codomain
          else Check.subst (.single name (.var param)) codomain
        let body ← body.check (ctx.bindDeclared declared) (expected.withTerm codomain)
        Check.lambda param body : Check σ κ Core).Yields fun t ↦ t.isWellAnnotated = true := by
      split
      · exact Yields.bind (.pure htype.2) fun _ h ↦ hrest h
      · have himages : (Substitution.single name (.var param)).WellAnnotated := .single name rfl
        exact (Check.annotates_subst himages htype.2).bind fun _ h ↦ hrest h
    cases type? with
    | none => exact hrange
    | some type => exact .bind_any fun _ ↦ .bind_any fun _ ↦ hrange
  · exact .fail
  · exact .fail

theorem lambdaRule_wellAnnotated (hbody : body.WellAnnotated) :
    (lambdaRule fuel self param body).WellAnnotated where
  infer _ _ := .fail
  check ctx hctx expected hexpected := by
    change (checkLambda fuel self param none body ctx expected).Yields _
    exact checkLambda_annotates hbody hctx hexpected

theorem typedLambdaRule_wellAnnotated {type : Judged σ κ} (htype : type.WellAnnotated)
    (hbody : body.WellAnnotated) : (typedLambdaRule fuel self param type body).WellAnnotated where
  infer ctx hctx := by
    unfold typedLambdaRule
    refine .bind_any fun _ ↦ ?_
    refine (htype.declare hctx param).bind fun declared hdeclared ↦ ?_
    have hinner := hctx.bindDeclared hdeclared
    refine (hbody.infer _ hinner).bind fun found hfound ↦ ?_
    refine (Check.annotates_normalize hinner hfound.1).bind fun bodyType hbodyType ↦ ?_
    dsimp only
    split
    · exact .bind (P := fun _ ↦ False) .fail fun _ h ↦ h.elim
    · refine (Check.annotates_lambda hfound.2).bind fun lambda hlambda ↦ ?_
      exact .pure ⟨Core.isWellAnnotated_quant_iff.mpr ⟨hdeclared, hbodyType⟩, hlambda⟩
  check ctx hctx expected hexpected := by
    change (checkLambda fuel self param (some type) body ctx expected).Yields _
    exact checkLambda_annotates hbody hctx hexpected

/-- The type that is recorded is the normal form of the operator's type, a quantifier. -/
theorem inferApplication_annotates (hoperator : operator.WellAnnotated)
    (hargument : argument.WellAnnotated) (hctx : ctx.WellAnnotated) :
    (inferApplication fuel self operator argument ctx).Yields Classified.WellAnnotated := by
  unfold inferApplication
  refine (hoperator.infer ctx hctx).bind fun function hfunction ↦ ?_
  refine (Check.annotates_normalize hctx hfunction.1).bind fun type htype ↦ ?_
  split
  · rename_i rank domain name codomain
    obtain ⟨hdomain, hcodomain⟩ := Core.isWellAnnotated_quant_iff.mp htype
    refine (hargument.check ctx hctx ⟨rank + 1, .univ rank, domain⟩ hdomain).bind
      fun operand hoperand ↦ ?_
    have hresult :
        (if name == anonymous then codomain
          else codomain.subst (.single name operand)).isWellAnnotated = true := by
      split
      · exact hcodomain
      · exact codomain.isWellAnnotated_subst hcodomain _ (.single name hoperand)
    refine (Check.annotates_normalize hctx hresult).bind fun result hresult ↦ ?_
    exact .pure ⟨hresult, Core.isWellAnnotated_app htype hfunction.2 hoperand⟩
  · exact .fail
  · exact .fail

theorem applicationRule_wellAnnotated (hoperator : operator.WellAnnotated)
    (hargument : argument.WellAnnotated) :
    (applicationRule fuel self operator argument).WellAnnotated where
  infer _ hctx := inferApplication_annotates hoperator hargument hctx
  check _ hctx _ _ :=
    checkByInference_annotates (inferApplication_annotates hoperator hargument hctx)

theorem checkAppliedLambda_annotates (hfunction : function.WellAnnotated)
    (hargument : argument.WellAnnotated) (hctx : ctx.WellAnnotated) {expected : Classified Core}
    (hexpected : expected.term.isWellAnnotated = true) :
    (checkAppliedLambda function argument ctx expected).Yields
      fun t ↦ t.isWellAnnotated = true := by
  refine (hargument.infer ctx hctx).bind fun found hfound ↦ ?_
  have harrow : (Core.quantify .universal (found.withTerm anonymous)
      expected.term).isWellAnnotated = true :=
    Core.isWellAnnotated_quant_iff.mpr ⟨hfound.1, hexpected⟩
  refine (hfunction.check ctx hctx (expected.withTerm _) harrow).bind
    fun elaborated helaborated ↦ ?_
  refine Yields.bind (P := fun operator ↦ (Core.apply operator found.term).isWellAnnotated = true)
    (.ofOption fun operator hoperator ↦ ?_) fun operator hoperator ↦ .pure hoperator
  obtain ⟨_, -, rfl⟩ := Classified.inhabitant?_eq_some_iff.mp hoperator
  exact Core.isWellAnnotated_app harrow helaborated hfound.2

theorem appliedLambdaRule_wellAnnotated (hfunction : function.WellAnnotated)
    (hbody : body.WellAnnotated) (hargument : argument.WellAnnotated) :
    (appliedLambdaRule fuel self function param body argument).WellAnnotated where
  infer _ hctx := elaborateLet_annotates hargument hbody hctx (by simp)
  check _ hctx _ hexpected := checkAppliedLambda_annotates hfunction hargument hctx hexpected

theorem appliedTypedLambdaRule_wellAnnotated (hfunction : function.WellAnnotated)
    (hargument : argument.WellAnnotated) :
    (appliedTypedLambdaRule fuel self function argument).WellAnnotated where
  infer _ hctx := inferApplication_annotates hfunction.logged hargument hctx
  check _ hctx _ hexpected := checkAppliedLambda_annotates hfunction hargument hctx hexpected

end Functions

/-! ### Quantifiers -/

section Quantifiers

variable {ctx : Ctx} {fuel : Nat} {self : Term} {polarity : Polarity} {name : Option String}
  {body : Judged σ κ}

theorem quantifyOver_annotates {binder : Classified String} (hbody : body.WellAnnotated)
    (hctx : ctx.WellAnnotated) (hbinder : binder.type.isWellAnnotated = true) :
    (quantifyOver polarity binder body ctx).Yields Classified.WellAnnotated := by
  refine (hbody.infer _ (hctx.bindDeclared hbinder)).bind fun range hrange ↦ ?_
  split
  · exact .pure ⟨hrange.1, Core.isWellAnnotated_quant_iff.mpr ⟨hbinder, hrange.2⟩⟩
  · exact .fail

/-- The type of the instance applies the class, whose type was found to be a quantifier. -/
theorem quantifyOverClass_annotates {x : String} {cls : Judged σ κ} (hcls : cls.WellAnnotated)
    (hbody : body.WellAnnotated) (hctx : ctx.WellAnnotated) :
    (quantifyOverClass fuel polarity x cls body ctx).Yields Classified.WellAnnotated := by
  refine (hcls.infer ctx hctx).bind fun found hfound ↦ ?_
  refine (Check.annotates_normalized hctx hfound).bind fun cls hcls ↦ ?_
  split
  · rename_i rank domain y codomain htype
    have hquantifier : (Core.quant .universal rank domain y codomain).isWellAnnotated = true := by
      rw [← htype]
      exact hcls.1
    have hdomain := (Core.isWellAnnotated_quant_iff.mp hquantifier).1
    split
    · rename_i instanceRank
      let parameter : Classified String := ⟨rank, domain, x⟩
      have hinner : (ctx.bindDeclared parameter).WellAnnotated := hctx.bindDeclared hdomain
      have hevidence : (Core.apply cls (.var x)).isWellAnnotated = true := by
        rw [Core.apply, htype]
        exact Core.isWellAnnotated_app hquantifier hcls.2 rfl
      refine (quantifyOver_annotates hbody hinner hevidence).bind fun range hrange ↦ ?_
      exact .pure ⟨hrange.1, Core.isWellAnnotated_quant_iff.mpr ⟨hdomain, hrange.2⟩⟩
    · exact .fail
  · exact .fail

theorem quantifierRule_wellAnnotated {infer : Ctx → Check σ κ (Classified Core)}
    (h : ∀ ctx : Ctx, ctx.WellAnnotated → (infer ctx).Yields Classified.WellAnnotated) :
    (quantifierRule fuel self infer).WellAnnotated where
  infer := h
  check ctx hctx expected _ := by
    refine .bind_any fun type ↦ ?_
    split
    · exact checkTypeByInference_annotates (h ctx hctx)
    · exact .fail

theorem inferUnbounded_annotates (hbody : body.WellAnnotated) (hctx : ctx.WellAnnotated) :
    (inferUnbounded polarity name body ctx).Yields Classified.WellAnnotated :=
  .bind_any fun _ ↦ quantifyOver_annotates hbody hctx rfl

theorem inferTypeBound_annotates {type : Judged σ κ} (htype : type.WellAnnotated)
    (hbody : body.WellAnnotated) (hctx : ctx.WellAnnotated) :
    (inferTypeBound fuel polarity name type body ctx).Yields Classified.WellAnnotated := by
  refine .bind_any fun _ ↦ ?_
  refine (htype.declare hctx (boundName name)).bind fun binder hbinder ↦ ?_
  exact quantifyOver_annotates hbody hctx hbinder

theorem inferClassBound_annotates {cls : Judged σ κ} (hcls : cls.WellAnnotated)
    (hbody : body.WellAnnotated) (hctx : ctx.WellAnnotated) :
    (inferClassBound fuel polarity name cls body ctx).Yields Classified.WellAnnotated := by
  refine .bind_any fun _ ↦ ?_
  cases name with
  | none => exact .fail
  | some x => exact quantifyOverClass_annotates hcls hbody hctx

end Quantifiers

/-! ### Records -/

section Records

variable {ctx : Ctx} {fuel : Nat} {self : Term} {members : List (String × Judged σ κ)}

theorem inferTelescope_annotates (hctx : ctx.WellAnnotated)
    (hmembers : ∀ member ∈ members, member.2.WellAnnotated) :
    (inferTelescope fuel ctx members).Yields fun found ↦ found.2.isWellAnnotated = true := by
  induction members generalizing ctx with
  | nil => exact .pure rfl
  | cons member members ih =>
    obtain ⟨hmember, hmembers⟩ := List.forall_mem_cons.mp hmembers
    refine .bind_any fun _ ↦ ?_
    refine (hmember.declare hctx member.1).bind fun declared hdeclared ↦ ?_
    refine (ih (hctx.bindDeclared hdeclared) hmembers).bind fun rest hrest ↦ ?_
    exact .pure ((Bool.and_eq_true _ _).mpr ⟨hdeclared, hrest⟩)

theorem inferSignature_annotates (hmembers : ∀ member ∈ members, member.2.WellAnnotated)
    (hctx : ctx.WellAnnotated) :
    (inferSignature fuel members ctx).Yields Classified.WellAnnotated := by
  refine (inferTelescope_annotates hctx hmembers).bind fun found hfound ↦ ?_
  exact .pure ⟨rfl, hfound⟩

theorem signatureRule_wellAnnotated (hmembers : ∀ member ∈ members, member.2.WellAnnotated) :
    (signatureRule fuel self members).WellAnnotated where
  infer _ hctx := inferSignature_annotates hmembers hctx
  check _ hctx _ _ := checkTypeByInference_annotates (inferSignature_annotates hmembers hctx)

theorem inferMembers_annotates {earlier : Substitution} (hctx : ctx.WellAnnotated)
    (hearlier : earlier.WellAnnotated) (hmembers : ∀ member ∈ members, member.2.WellAnnotated) :
    (inferMembers fuel ctx earlier members).Yields fun found ↦
      found.2.1.isWellAnnotated = true ∧ Core.isWellAnnotatedMembers found.2.2 = true := by
  induction members generalizing ctx earlier with
  | nil => exact .pure ⟨rfl, rfl⟩
  | cons member members ih =>
    obtain ⟨hmember, hmembers⟩ := List.forall_mem_cons.mp hmembers
    refine .bind_any fun _ ↦ ?_
    refine (hmember.infer ctx hctx).bind fun defined hdefined ↦ ?_
    refine (Check.annotates_normalized hctx hdefined).bind fun value hvalue ↦ ?_
    refine (Check.annotates_subst hearlier hdefined.2).bind fun elaborated helaborated ↦ ?_
    have hinner := hctx.bind member.1 hvalue
    refine (ih hinner (hearlier.insert member.1 hvalue.2) hmembers).bind fun rest hrest ↦ ?_
    exact .pure ⟨(Bool.and_eq_true _ _).mpr ⟨hvalue.1, hrest.1⟩,
      (Bool.and_eq_true _ _).mpr ⟨helaborated, hrest.2⟩⟩

theorem checkMembers_annotates {earlier : Substitution} {position : Nat} {types : Telescope}
    (hctx : ctx.WellAnnotated) (hearlier : earlier.WellAnnotated)
    (hmembers : ∀ member ∈ members, member.2.WellAnnotated)
    (htypes : types.isWellAnnotated = true) :
    (checkMembers fuel position ctx earlier members types).Yields fun found ↦
      Core.isWellAnnotatedMembers found = true := by
  induction members generalizing ctx earlier position types with
  | nil =>
    unfold checkMembers
    exact .pure rfl
  | cons member members ih =>
    obtain ⟨hmember, hmembers⟩ := List.forall_mem_cons.mp hmembers
    cases types with
    | nil => exact .pure rfl
    | cons rank type label types =>
      obtain ⟨htype, htypes⟩ := (Bool.and_eq_true _ _).mp htypes
      unfold checkMembers
      dsimp only
      split
      · exact .bind (P := fun _ ↦ False) .fail fun _ h ↦ h.elim
      · refine .bind_any fun _ ↦ ?_
        refine (Check.annotates_normalized hctx ⟨rfl, htype⟩).bind fun expected hexpected ↦ ?_
        refine (hmember.check ctx hctx expected hexpected.2).bind fun elaborated helaborated ↦ ?_
        refine (Check.annotates_normalized hctx ⟨hexpected.2, helaborated⟩).bind
          fun value hvalue ↦ ?_
        refine (Check.annotates_subst hearlier helaborated).bind fun found hfound ↦ ?_
        have hinner := hctx.bind member.1 hvalue
        refine (ih hinner (hearlier.insert member.1 hvalue.2) hmembers htypes).bind
          fun rest hrest ↦ ?_
        exact .pure ((Bool.and_eq_true _ _).mpr ⟨hfound, hrest⟩)

theorem recordRule_wellAnnotated (hmembers : ∀ member ∈ members, member.2.WellAnnotated) :
    (recordRule fuel self members).WellAnnotated where
  infer ctx hctx := by
    refine (inferMembers_annotates hctx .nil hmembers).bind fun found hfound ↦ ?_
    exact .pure hfound
  check ctx hctx expected hexpected := by
    refine (Check.annotates_normalize hctx hexpected).bind fun type htype ↦ ?_
    split
    · dsimp only
      split
      · exact .bind (P := fun _ ↦ False) .fail fun _ h ↦ h.elim
      · refine (checkMembers_annotates hctx .nil hmembers htype).bind fun found hfound ↦ ?_
        exact .pure hfound
    · exact .fail

/-- The members that are left stand at the positions from `position` on, so the record can be
projected there, for the member that is found and for the members before it. -/
theorem findMember?_annotates {record : Classified Core} {name : String} {position : Nat}
    {earlier : Substitution} {types : Telescope} {member : Classified Nat}
    (hrecord : record.WellAnnotated)
    (hpositions : ∀ index, position ≤ index → index < position + types.length →
      record.type.declaresMember index = true)
    (htypes : types.isWellAnnotated = true) (hearlier : earlier.WellAnnotated)
    (h : findMember? record name position earlier types = some member) :
    member.type.isWellAnnotated = true ∧
      (Core.project record member.term).isWellAnnotated = true := by
  match types with
  | .nil => simp [findMember?] at h
  | .cons rank type label rest =>
    obtain ⟨htype, hrest⟩ := (Bool.and_eq_true _ _).mp htypes
    simp only [Telescope.length] at hpositions
    have hproject : (Core.project record position).isWellAnnotated = true := by
      simp only [Core.project, Core.isWellAnnotated, Bool.and_eq_true]
      exact ⟨⟨hpositions position (Nat.le_refl _) (by omega), hrecord.1⟩, hrecord.2⟩
    unfold findMember? at h
    split at h
    · simp only [Option.some.injEq] at h
      subst h
      exact ⟨type.isWellAnnotated_subst htype earlier hearlier, hproject⟩
    · refine findMember?_annotates hrecord (fun index hle hlt ↦ ?_) hrest
        (hearlier.insert label hproject) h
      exact hpositions index (by omega) (by omega)

theorem inferAccess_annotates {operator : Judged σ κ} {name : String}
    (hoperator : operator.WellAnnotated) (hctx : ctx.WellAnnotated) :
    (inferAccess fuel operator name ctx).Yields Classified.WellAnnotated := by
  refine (hoperator.infer ctx hctx).bind fun found hfound ↦ ?_
  refine (Check.annotates_normalize hctx hfound.1).bind fun type htype ↦ ?_
  split
  · rename_i types
    have hrecord : Classified.WellAnnotated ⟨found.rank, .signature types, found.term⟩ :=
      ⟨htype, hfound.2⟩
    dsimp only
    split
    · rename_i member hmember
      obtain ⟨hmemberType, hproject⟩ := findMember?_annotates hrecord
        (fun index _ hlt ↦ by simpa [Core.declaresMember] using hlt) htype .nil hmember
      refine (Check.annotates_normalize hctx hmemberType).bind fun type htype ↦ ?_
      exact .pure ⟨htype, hproject⟩
    · exact .fail
  · exact .fail

theorem accessRule_wellAnnotated {operator : Judged σ κ} {name : String}
    (hoperator : operator.WellAnnotated) :
    (accessRule fuel self operator name).WellAnnotated where
  infer _ hctx := inferAccess_annotates hoperator hctx
  check _ hctx _ _ := checkTypeByInference_annotates (inferAccess_annotates hoperator hctx)

end Records

/-! ### All terms -/

/-- Constants and imports are made of well annotated terms. -/
def Mention.WellAnnotated (host : Host σ κ) : Mention → Prop
  | .identifier _ => True
  | .constant content => (content.map Core.const).WellAnnotated
  | .imported filename =>
    (host.resolve filename).Yields fun content ↦ (content.map Core.const).WellAnnotated

section Leaves

variable {fuel : Nat} {self : Term}

theorem universeRule_wellAnnotated {rank : Nat} :
    (universeRule fuel self rank : Judged σ κ).WellAnnotated where
  infer _ _ := .pure ⟨rfl, rfl⟩
  check _ _ _ _ := by
    refine .bind_any fun type ↦ ?_
    split
    · split
      · exact .pure rfl
      · exact .fail
    · exact .fail

theorem annotationRule_wellAnnotated {type term : Judged σ κ} (htype : type.WellAnnotated)
    (hterm : term.WellAnnotated) : (annotationRule fuel self type term).WellAnnotated where
  infer ctx hctx := by
    refine (htype.declare hctx anonymous).bind fun declared hdeclared ↦ ?_
    refine (hterm.check ctx hctx declared.typeOf hdeclared).bind fun found hfound ↦ ?_
    exact .pure ⟨hdeclared, hfound⟩
  check ctx hctx expected hexpected :=
    .bind_any fun _ ↦ .bind_any fun _ ↦ hterm.check ctx hctx expected hexpected

end Leaves

mutual

theorem Term.rule_wellAnnotated (host : Host σ κ) :
    (e : Term) → (∀ m ∈ e.mentions, m.WellAnnotated host) → (e.rule host).WellAnnotated
  | .univ rank, _ => universeRule_wellAnnotated
  | .var name, _ => by
    refine wellAnnotated_of_infer fun ctx hctx ↦ ?_
    exact (Check.annotates_lookup hctx name).bind fun _ hfound ↦ .pure ⟨hfound.1, rfl⟩
  | .lam param body, h => by
    have hbody := body.rule_wellAnnotated host (List.forall_mem_cons.mp h).2
    exact lambdaRule_wellAnnotated hbody.logged
  | .typedLam param type body, h => by
    obtain ⟨htype, hbody⟩ := List.forall_mem_append.mp (List.forall_mem_cons.mp h).2
    exact typedLambdaRule_wellAnnotated (type.rule_wellAnnotated host htype).logged
      (body.rule_wellAnnotated host hbody).logged
  | .app operator argument, h => by
    obtain ⟨hoperator, hargument⟩ := List.forall_mem_append.mp h
    have hfunction := operator.rule_wellAnnotated host hoperator
    have hargument := (argument.rule_wellAnnotated host hargument).logged
    cases operator with
    | lam param body =>
      have hbody := body.rule_wellAnnotated host (List.forall_mem_cons.mp hoperator).2
      exact appliedLambdaRule_wellAnnotated hfunction hbody.logged hargument
    | typedLam param type body => exact appliedTypedLambdaRule_wellAnnotated hfunction hargument
    | _ => exact applicationRule_wellAnnotated hfunction.logged hargument
  | .quant polarity bound name body, h => by
    obtain ⟨h, hbody⟩ := List.forall_mem_append.mp h
    have hbound := (List.forall_mem_append.mp h).2
    have hbody := (body.rule_wellAnnotated host hbody).logged
    exact quantifierRule_wellAnnotated (bound.inferQuantifier_annotates host hbound hbody)
  | .signature members, h => signatureRule_wellAnnotated (members.judged_wellAnnotated host h)
  | .record members, h => recordRule_wellAnnotated (members.judged_wellAnnotated host h)
  | .access operator name, h => by
    have hoperator := operator.rule_wellAnnotated host (List.forall_mem_cons.mp h).2
    exact accessRule_wellAnnotated hoperator.logged
  | .danglingAccess _, _ => ⟨fun _ _ ↦ .fail, fun _ _ _ _ ↦ .fail⟩
  | .generic _ _, _ => ⟨fun _ _ ↦ .fail, fun _ _ _ _ ↦ .fail⟩
  | .anno type term, h => by
    obtain ⟨htype, hterm⟩ := List.forall_mem_append.mp h
    exact annotationRule_wellAnnotated (type.rule_wellAnnotated host htype).logged
      (term.rule_wellAnnotated host hterm).logged
  | .letIn name definition body, h => by
    obtain ⟨hdefinition, hbody⟩ := List.forall_mem_append.mp (List.forall_mem_cons.mp h).2
    exact letRule_wellAnnotated (definition.rule_wellAnnotated host hdefinition).logged
      (body.rule_wellAnnotated host hbody).logged
  | .const content, h => by
    have hcontent : (content.map Core.const).WellAnnotated :=
      h (.constant content) (by simp [Term.mentions])
    exact wellAnnotated_of_infer fun ctx _ ↦ .pure hcontent
  | .typeOf term, h => by
    refine wellAnnotated_of_infer fun ctx hctx ↦ ?_
    refine ((term.rule_wellAnnotated host h).logged.infer ctx hctx).bind fun found hfound ↦ ?_
    exact .pure ⟨rfl, hfound.1⟩
  | .importing filename, h => by
    have himport : (host.resolve filename).Yields fun content ↦
        (content.map Core.const).WellAnnotated :=
      h (.imported filename) (by simp [Term.mentions])
    refine wellAnnotated_of_infer fun ctx _ ↦ ?_
    exact himport.mapError.bind fun content hcontent ↦ .pure hcontent

theorem Bound.inferQuantifier_annotates (host : Host σ κ) :
    (bound : Bound) → (∀ m ∈ bound.mentions, m.WellAnnotated host) → {polarity : Polarity} →
      {name : Option String} → {body : Judged σ κ} → body.WellAnnotated →
      ∀ ctx : Ctx, ctx.WellAnnotated →
        (bound.inferQuantifier host polarity name body ctx).Yields Classified.WellAnnotated
  | .unbounded, _, _, _, _, hbody, _, hctx => inferUnbounded_annotates hbody hctx
  | .type type, h, _, _, _, hbody, _, hctx =>
    inferTypeBound_annotates (type.rule_wellAnnotated host h).logged hbody hctx
  | .typeClass cls, h, _, _, _, hbody, _, hctx =>
    inferClassBound_annotates (cls.rule_wellAnnotated host h).logged hbody hctx

theorem Fields.judged_wellAnnotated (host : Host σ κ) :
    (fields : Fields) → (∀ m ∈ fields.mentions, m.WellAnnotated host) →
      ∀ member ∈ fields.judged host, member.2.WellAnnotated
  | .nil, _ => by simp [Fields.judged]
  | .cons name term rest, h => by
    obtain ⟨hterm, hrest⟩ := List.forall_mem_append.mp (List.forall_mem_cons.mp h).2
    rw [Fields.judged]
    exact List.forall_mem_cons.mpr ⟨(term.rule_wellAnnotated host hterm).logged,
      rest.judged_wellAnnotated host hrest⟩

end

/-- From a well annotated context, inference and checking make well annotated terms and types, if
the constants, the imports and the expected type are well annotated; and substitution and
normalization keep terms well annotated. -/
theorem Term.elaboration_wellAnnotated (host : Host σ κ) (ctx : Ctx) (e : Term)
    (hctx : ctx.WellAnnotated) (hmentions : ∀ m ∈ e.mentions, m.WellAnnotated host) :
    (e.infer host ctx).Yields Classified.WellAnnotated ∧
      (∀ expected : Classified Core, expected.WellAnnotated →
        (e.check host ctx expected).Yields fun t ↦ t.isWellAnnotated = true) ∧
      (∀ t : Core, t.isWellAnnotated = true → ∀ images : Substitution,
        (∀ entry ∈ images, entry.2.isWellAnnotated = true) →
          (t.subst images).isWellAnnotated = true) ∧
      ∀ t : Core, t.isWellAnnotated = true → ∀ env : NormEnv,
        (∀ entry ∈ env, entry.2.isWellAnnotated = true) → ∀ fuel : Nat,
          (t.normalize fuel env).Yields fun n ↦ n.isWellAnnotated = true := by
  have hrule := (e.rule_wellAnnotated host hmentions).logged
  refine ⟨hrule.infer ctx hctx, fun expected hexpected ↦ ?_, Core.isWellAnnotated_subst,
    fun t ht env henv fuel c n c' hn ↦ ?_⟩
  · exact hrule.check ctx hctx expected hexpected.2
  · exact (Core.normalizes_of_returns hn).isWellAnnotated (.of_entries henv) ht

/-- The identity of integers, a constant, applied to a member of a record: the elaborated term has
an application and a projection. -/
theorem Term.elaboration_wellAnnotated_member :
    let int : Core := .var "int"
    let point : Core := .signature (.cons 0 int "a" (.cons 0 int "b" .nil))
    let ctx : Ctx := ⟨[("r", ⟨0, point, .var "r"⟩), ("int", ⟨1, .univ 0, int⟩)]⟩
    let identity : Classified Value :=
      ⟨0, .quant .universal 0 int anonymous int, .closure [] "x" none (.var "x")⟩
    let e : Term := .app (.const identity) (.access (.var "r") "b")
    ctx.WellAnnotated ∧ (∀ m ∈ e.mentions, m.WellAnnotated (Host.withoutImports 10)) ∧
      (e.infer (Host.withoutImports 10) ctx).outcome ⟨(), .empty⟩ =
        .ok ⟨0, int, .app 0 identity.type (.const identity.term) (.proj 0 point (.var "r") 1)⟩ ∧
      (e.infer (Host.withoutImports 10) ctx).Yields Classified.WellAnnotated := by
  intro int point ctx identity e
  have hctx : ctx.WellAnnotated := by
    refine List.forall_mem_cons.mpr ⟨⟨rfl, rfl⟩, List.forall_mem_cons.mpr ⟨⟨rfl, rfl⟩, ?_⟩⟩
    simp
  have hmentions : ∀ m ∈ e.mentions, m.WellAnnotated (Host.withoutImports 10) := by
    intro m hm
    simp only [e, Term.mentions, List.cons_append, List.nil_append, List.mem_cons,
      List.not_mem_nil, or_false] at hm
    rcases hm with rfl | rfl | rfl
    · exact ⟨rfl, rfl⟩
    · trivial
    · trivial
  exact ⟨hctx, hmentions, rfl, (Term.elaboration_wellAnnotated _ ctx e hctx hmentions).1⟩

end RankedTT
