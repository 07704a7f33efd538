import RankedTT.Proofs.Scope
import RankedTT.Typing.Judge
import RankedTT.Typing.Resolver

/-!
Elaboration is well scoped. In a closed context, whatever the typing rules return lies in the scope
of that context: no name of a let binding, a parameter, a record member or a generated name is left
behind in a term or in a type. A rule is well scoped if this holds in every closed extension of a
context, and every construct makes a well-scoped rule from well-scoped rules for its parts.
-/

set_option autoImplicit false
set_option relaxedAutoImplicit false

namespace RankedTT

open Run

variable {σ κ : Type}

/-- In extensions of `base` whose names stand for what is in scope, the answers of a rule are in
scope. -/
structure Judged.WellScoped (rule : Judged σ κ) (base : Ctx) : Prop where
  infer : ∀ ctx : Ctx, ctx.ScopesNames → ctx.Extends base →
    (rule.infer ctx).Yields (Check.Scoped ctx)
  check : ∀ ctx : Ctx, ctx.ScopesNames → ctx.Extends base → ∀ expected : Classified Core,
    ctx.Scopes expected.term → (rule.check ctx expected).Yields ctx.Scopes

section Steps

variable {base ctx : Ctx} {rule : Judged σ κ} {fuel : Nat}

theorem Judged.WellScoped.logged (h : rule.WellScoped base) : rule.logged.WellScoped base where
  infer ctx hclosed hext := by
    refine (h.infer ctx hclosed hext).bind fun judgement hjudgement ↦ ?_
    exact .bind_any fun _ ↦ .pure hjudgement
  check ctx hclosed hext expected hexpected :=
    .bind_any fun _ ↦ h.check ctx hclosed hext expected hexpected

theorem Classified.scoped_inhabitant? {judgement found : Classified Core} {t : Core}
    (h : judgement.inhabitant? t = some found) (hterm : ctx.Scopes judgement.term)
    (ht : ctx.Scopes t) : Check.Scoped ctx found := by
  obtain ⟨_, -, rfl⟩ := Classified.inhabitant?_eq_some_iff.mp h
  exact ⟨hterm, ht⟩

theorem Judged.WellScoped.ensure (h : rule.WellScoped base) (hclosed : ctx.ScopesNames)
    (hext : ctx.Extends base) {expected : Option (Classified Core)}
    (hexpected : ∀ judgement ∈ expected, ctx.Scopes judgement.term) :
    (rule.ensure ctx expected).Yields (Check.Scoped ctx) := by
  cases expected with
  | none => exact h.infer ctx hclosed hext
  | some expected =>
    have hterm := hexpected expected rfl
    refine (h.check ctx hclosed hext expected hterm).bind fun elaborated helaborated ↦ ?_
    refine .ofOption fun judgement hjudgement ↦ ?_
    exact Classified.scoped_inhabitant? hjudgement hterm helaborated

theorem Judged.WellScoped.declare (h : rule.WellScoped base) (hclosed : ctx.ScopesNames)
    (hext : ctx.Extends base) (name : String) :
    (rule.declare fuel ctx name).Yields fun declared ↦
      declared.term = name ∧ ctx.Scopes declared.type := by
  refine (h.infer ctx hclosed hext).bind fun found hfound ↦ ?_
  refine (Check.yields_normalized hclosed.resolvesIn hfound).bind fun judgement hjudgement ↦ ?_
  refine .ofOption fun declared hdeclared ↦ ?_
  obtain ⟨_, -, rfl⟩ := Classified.inhabitant?_eq_some_iff.mp hdeclared
  exact ⟨rfl, hjudgement.2⟩

/-- Checking a type compares two ranks, and goes on as checking a term does, from the judgement that
was found. -/
theorem checkTypeByInference_yields_of_found {P : Classified Core → Prop} {Q : Core → Prop}
    {term : Term} {infer : Ctx → Check σ κ (Classified Core)} {expected : Classified Core}
    (h : (infer ctx).Yields P)
    (hfound : ∀ found, P found →
      (checkByInference fuel (fun _ ↦ pure found) ctx expected : Check σ κ Core).Yields Q) :
    (checkTypeByInference fuel term infer ctx expected).Yields Q := by
  refine h.bind fun found hP ↦ .bind_any fun expectedType ↦ .bind_any fun foundType ↦ ?_
  have hrest := hfound found hP
  split
  · split
    · exact .bind_any fun _ ↦ hrest
    · exact hrest
  · exact hrest

theorem checkByInference_yields {infer : Ctx → Check σ κ (Classified Core)}
    {expected : Classified Core} (h : (infer ctx).Yields (Check.Scoped ctx)) :
    (checkByInference fuel infer ctx expected).Yields ctx.Scopes := by
  refine h.bind fun found hfound ↦ ?_
  exact .bind_any fun _ ↦ .pure hfound.2

theorem checkTypeByInference_yields {term : Term} {infer : Ctx → Check σ κ (Classified Core)}
    {expected : Classified Core} (h : (infer ctx).Yields (Check.Scoped ctx)) :
    (checkTypeByInference fuel term infer ctx expected).Yields ctx.Scopes :=
  checkTypeByInference_yields_of_found h fun _ hfound ↦ checkByInference_yields (.pure hfound)

theorem wellScoped_of_infer {self : Term} {infer : Ctx → Check σ κ (Classified Core)}
    (h : ∀ ctx : Ctx, ctx.ScopesNames → ctx.Extends base → (infer ctx).Yields (Check.Scoped ctx)) :
    (inferredRule fuel self infer).WellScoped base where
  infer := h
  check ctx hclosed hext _ _ := checkByInference_yields (h ctx hclosed hext)

end Steps

/-! ### Functions -/

section Functions

variable {base ctx : Ctx} {fuel : Nat} {self : Term} {name param : String}
  {definition body operator argument function : Judged σ κ}

/-- The bound name stands for its value while the type of the body is normalized, so the type does
not mention it. -/
theorem elaborateLet_yields (hdefinition : definition.WellScoped base)
    (hbody : body.WellScoped base) (hclosed : ctx.ScopesNames) (hext : ctx.Extends base)
    {expected : Option (Classified Core)}
    (hexpected : ∀ judgement ∈ expected, ctx.Scopes judgement.term) :
    (elaborateLet fuel name definition body expected ctx).Yields (Check.Scoped ctx) := by
  unfold elaborateLet
  refine .bind_any fun _ ↦ ?_
  refine (hdefinition.infer ctx hclosed hext).bind fun defined hdefined ↦ ?_
  refine (Check.yields_normalized hclosed.resolvesIn hdefined).bind fun value hvalue ↦ ?_
  have hinner := hclosed.bind_value name hvalue.1 hvalue.2
  have hvalues : (ctx.bind name value).ResolvesIn ctx := hclosed.resolvesIn.bind hvalue.2
  refine (hbody.ensure hinner (hext.bind name value)
    fun judgement hmem ↦ (hexpected judgement hmem).bind name value).bind fun elaborated hel ↦ ?_
  refine (Check.yields_normalize hvalues hel.1).bind fun result hresult ↦ ?_
  refine (Check.yields_lambda hel.2).bind fun lambda hlambda ↦ ?_
  refine .pure ⟨hresult, Ctx.scopes_app_iff.mpr ⟨?_, hlambda, hdefined.2⟩⟩
  exact (Ctx.scopes_quant_iff value).mpr ⟨hdefined.1, hresult.bind _ _⟩

theorem letRule_wellScoped (hdefinition : definition.WellScoped base)
    (hbody : body.WellScoped base) :
    (letRule fuel self name definition body).WellScoped base where
  infer ctx hclosed hext := elaborateLet_yields hdefinition hbody hclosed hext (by simp)
  check ctx hclosed hext expected hexpected := by
    refine (elaborateLet_yields hdefinition hbody hclosed hext (by simpa)).bind
      fun found hfound ↦ ?_
    exact .pure hfound.2

theorem checkLambda_yields {type? : Option (Judged σ κ)} (hparam : param ≠ anonymous)
    (hbody : body.WellScoped base) (hclosed : ctx.ScopesNames) (hext : ctx.Extends base)
    {expected : Classified Core} (hexpected : ctx.Scopes expected.term) :
    (checkLambda fuel self param type? body ctx expected).Yields ctx.Scopes := by
  unfold checkLambda
  refine (Check.yields_normalize hclosed.resolvesIn hexpected).bind fun type htype ↦ ?_
  split
  · rename_i rank domain name codomain
    let declared : Classified String := ⟨rank, domain, param⟩
    obtain ⟨hdomain, hcodomain⟩ := (Ctx.scopes_quant_iff declared.asVariable).mp htype
    have hinner : (ctx.bindDeclared declared).ScopesNames := hclosed.bindDeclared hdomain
    refine .bind_any fun _ ↦ ?_
    have hrest {codomain : Core} (h : (ctx.bindDeclared declared).Scopes codomain) : (do
        let body ← body.check (ctx.bindDeclared declared) (expected.withTerm codomain)
        Check.lambda param body : Check σ κ Core).Yields ctx.Scopes := by
      refine (hbody.check _ hinner (hext.bind _ _) _ h).bind fun elaborated helaborated ↦ ?_
      exact Check.yields_lambda helaborated
    -- the codomain is about the parameter, whatever name the function type has for it
    have hrange : (do
        let codomain ←
          if name == anonymous || name == param then pure codomain
          else Check.subst (.single name (.var param)) codomain
        let body ← body.check (ctx.bindDeclared declared) (expected.withTerm codomain)
        Check.lambda param body : Check σ κ Core).Yields ctx.Scopes := by
      split
      · rename_i h
        rw [Bool.or_eq_true, beq_iff_eq, beq_iff_eq] at h
        refine Yields.bind (.pure ?_) fun _ h ↦ hrest h
        rcases h with rfl | rfl
        · exact hcodomain.of_bind_anonymous.bind _ _
        · exact hcodomain
      · have hcodomain' :
            ((ctx.bindDeclared declared).bind name declared.asVariable).Scopes codomain :=
          hcodomain.extend fun x hx ↦ Ctx.maps_bind.mpr
            ((Ctx.maps_bind.mp hx).imp_right fun h ↦ Ctx.maps_bind.mpr (.inr h))
        have hvar : (ctx.bindDeclared declared).Scopes (.var param) :=
          Ctx.scopes_var_iff.mpr ⟨Ctx.maps_bind.mpr (.inl rfl), hparam⟩
        exact (Check.yields_stamp (hcodomain'.subst_single hvar)).bind fun _ h ↦ hrest h
    cases type? with
    | none => exact hrange
    | some type => exact .bind_any fun _ ↦ .bind_any fun _ ↦ hrange
  · exact .fail
  · exact .fail

theorem lambdaRule_wellScoped (hparam : param ≠ anonymous) (hbody : body.WellScoped base) :
    (lambdaRule fuel self param body).WellScoped base where
  infer _ _ _ := .fail
  check ctx hclosed hext expected hexpected := by
    change (checkLambda fuel self param none body ctx expected).Yields ctx.Scopes
    exact checkLambda_yields hparam hbody hclosed hext hexpected

/-- The inferred return type is rejected if it mentions the parameter. -/
theorem typedLambdaRule_wellScoped {type : Judged σ κ} (hparam : param ≠ anonymous)
    (htype : type.WellScoped base) (hbody : body.WellScoped base) :
    (typedLambdaRule fuel self param type body).WellScoped base where
  infer ctx hclosed hext := by
    unfold typedLambdaRule
    refine .bind_any fun _ ↦ ?_
    refine (htype.declare hclosed hext param).bind fun declared ⟨hname, hdeclared⟩ ↦ ?_
    subst hname
    have hinner := hclosed.bindDeclared hdeclared
    refine (hbody.infer _ hinner (hext.bind _ _)).bind fun found hfound ↦ ?_
    refine (Check.yields_normalize hinner.resolvesIn hfound.1).bind fun bodyType hbodyType ↦ ?_
    dsimp only
    split
    · exact .bind (P := fun _ ↦ False) .fail fun _ h ↦ h.elim
    · rename_i hfree
      have hscoped : ctx.Scopes bodyType := by
        refine ⟨fun x hx ↦ ?_, hbodyType.named⟩
        refine (Ctx.maps_bind.mp (hbodyType.bound x hx)).resolve_left ?_
        rintro rfl
        exact hfree hx
      refine (Check.yields_lambda hfound.2).bind fun lambda hlambda ↦ ?_
      exact .pure ⟨(Ctx.scopes_quant_iff found).mpr ⟨hdeclared, hscoped.bind _ _⟩, hlambda⟩
  check ctx hclosed hext expected hexpected := by
    change (checkLambda fuel self param (some type) body ctx expected).Yields ctx.Scopes
    exact checkLambda_yields hparam hbody hclosed hext hexpected

theorem inferApplication_yields (hoperator : operator.WellScoped base)
    (hargument : argument.WellScoped base) (hclosed : ctx.ScopesNames) (hext : ctx.Extends base) :
    (inferApplication fuel self operator argument ctx).Yields (Check.Scoped ctx) := by
  unfold inferApplication
  refine (hoperator.infer ctx hclosed hext).bind fun function hfunction ↦ ?_
  refine (Check.yields_normalize hclosed.resolvesIn hfunction.1).bind fun type htype ↦ ?_
  split
  · rename_i rank domain name codomain
    obtain ⟨hdomain, hcodomain⟩ := (Ctx.scopes_quant_iff function).mp htype
    refine (hargument.check ctx hclosed hext ⟨rank + 1, .univ rank, domain⟩ hdomain).bind
      fun operand hoperand ↦ ?_
    have hresult := hcodomain.applied hoperand
    refine (Check.yields_normalize hclosed.resolvesIn hresult).bind fun result hresult ↦ ?_
    exact .pure ⟨hresult, Ctx.scopes_app_iff.mpr ⟨htype, hfunction.2, hoperand⟩⟩
  · exact .fail
  · exact .fail

theorem applicationRule_wellScoped (hoperator : operator.WellScoped base)
    (hargument : argument.WellScoped base) :
    (applicationRule fuel self operator argument).WellScoped base where
  infer _ hclosed hext := inferApplication_yields hoperator hargument hclosed hext
  check _ hclosed hext _ _ :=
    checkByInference_yields (inferApplication_yields hoperator hargument hclosed hext)

theorem checkAppliedLambda_yields (hfunction : function.WellScoped base)
    (hargument : argument.WellScoped base) (hclosed : ctx.ScopesNames) (hext : ctx.Extends base)
    {expected : Classified Core} (hexpected : ctx.Scopes expected.term) :
    (checkAppliedLambda function argument ctx expected).Yields ctx.Scopes := by
  refine (hargument.infer ctx hclosed hext).bind fun found hfound ↦ ?_
  have harrow : ctx.Scopes (Core.quantify .universal (found.withTerm anonymous) expected.term) :=
    (Ctx.scopes_quant_iff found).mpr ⟨hfound.1, hexpected.bind _ _⟩
  refine (hfunction.check ctx hclosed hext (expected.withTerm _) harrow).bind
    fun elaborated helaborated ↦ ?_
  refine Yields.bind (P := Check.Scoped ctx) (.ofOption fun judgement hjudgement ↦ ?_)
    fun judgement hjudgement ↦ ?_
  · exact Classified.scoped_inhabitant? hjudgement harrow helaborated
  · exact .pure (Ctx.scopes_app_iff.mpr ⟨hjudgement.1, hjudgement.2, hfound.2⟩)

theorem appliedLambdaRule_wellScoped (hfunction : function.WellScoped base)
    (hbody : body.WellScoped base) (hargument : argument.WellScoped base) :
    (appliedLambdaRule fuel self function param body argument).WellScoped base where
  infer _ hclosed hext := elaborateLet_yields hargument hbody hclosed hext (by simp)
  check _ hclosed hext _ hexpected :=
    checkAppliedLambda_yields hfunction hargument hclosed hext hexpected

theorem appliedTypedLambdaRule_wellScoped (hfunction : function.WellScoped base)
    (hargument : argument.WellScoped base) :
    (appliedTypedLambdaRule fuel self function argument).WellScoped base where
  infer _ hclosed hext := inferApplication_yields hfunction.logged hargument hclosed hext
  check _ hclosed hext _ hexpected :=
    checkAppliedLambda_yields hfunction hargument hclosed hext hexpected

end Functions

/-! ### Quantifiers -/

section Quantifiers

variable {base ctx : Ctx} {fuel : Nat} {self : Term} {polarity : Polarity} {name : Option String}
  {body : Judged σ κ}

/-- The judgement is about a type in scope. -/
def Classified.IsScopedType (ctx : Ctx) (judgement : Classified Core) : Prop :=
  (∃ rank, judgement.type = .univ rank) ∧ ctx.Scopes judgement.term

theorem Classified.IsScopedType.scoped {judgement : Classified Core}
    (h : judgement.IsScopedType ctx) : Check.Scoped ctx judgement := by
  obtain ⟨⟨rank, htype⟩, hterm⟩ := h
  exact ⟨by rw [htype]; exact Ctx.scopes_univ rank, hterm⟩

theorem Classified.IsScopedType.quantify {binder : Classified String} {range : Classified Core}
    (h : range.IsScopedType (ctx.bindDeclared binder)) (hbinder : ctx.Scopes binder.type) :
    (range.map (Core.quantify polarity binder)).IsScopedType ctx :=
  ⟨h.1, (Ctx.scopes_quant_iff binder.asVariable).mpr ⟨hbinder, h.2⟩⟩

theorem quantifyOver_yields {binder : Classified String} (hbody : body.WellScoped base)
    (hclosed : ctx.ScopesNames) (hext : ctx.Extends base) (hbinder : ctx.Scopes binder.type) :
    (quantifyOver polarity binder body ctx).Yields (Classified.IsScopedType ctx) := by
  refine (hbody.infer _ (hclosed.bindDeclared hbinder) (hext.bind _ _)).bind fun range hrange ↦ ?_
  split
  · rename_i rank hrank
    have hscoped : range.IsScopedType (ctx.bindDeclared binder) := ⟨⟨rank, hrank⟩, hrange.2⟩
    exact .pure (hscoped.quantify hbinder)
  · exact .fail

theorem quantifyOverClass_yields {x : String} {cls : Judged σ κ} (hx : x ≠ anonymous)
    (hcls : cls.WellScoped base) (hbody : body.WellScoped base) (hclosed : ctx.ScopesNames)
    (hext : ctx.Extends base) :
    (quantifyOverClass fuel polarity x cls body ctx).Yields (Classified.IsScopedType ctx) := by
  refine (hcls.infer ctx hclosed hext).bind fun found hfound ↦ ?_
  refine (Check.yields_normalized hclosed.resolvesIn hfound).bind fun cls hcls ↦ ?_
  split
  · rename_i rank domain _ codomain htype
    have hdomain : ctx.Scopes domain := by
      have := hcls.1
      rw [htype] at this
      exact ((Ctx.scopes_quant_iff cls).mp this).1
    split
    · rename_i instanceRank
      let parameter : Classified String := ⟨rank, domain, x⟩
      have hinner : (ctx.bindDeclared parameter).ScopesNames := hclosed.bindDeclared hdomain
      have hvar : (ctx.bindDeclared parameter).Scopes (.var x) :=
        Ctx.scopes_var_iff.mpr ⟨Ctx.maps_bind.mpr (.inl rfl), hx⟩
      have hevidence : (ctx.bindDeclared parameter).Scopes (.apply cls (.var x)) :=
        Ctx.scopes_app_iff.mpr ⟨hcls.1.bind _ _, hcls.2.bind _ _, hvar⟩
      refine Yields.bind (quantifyOver_yields hbody hinner (hext.bind _ _) hevidence)
        fun range hrange ↦ ?_
      exact .pure (hrange.quantify hdomain)
    · exact .fail
  · exact .fail

theorem quantifierRule_wellScoped {infer : Ctx → Check σ κ (Classified Core)}
    (h : ∀ ctx : Ctx, ctx.ScopesNames → ctx.Extends base →
      (infer ctx).Yields (Classified.IsScopedType ctx)) :
    (quantifierRule fuel self infer).WellScoped base where
  infer ctx hclosed hext := (h ctx hclosed hext).mono fun _ hfound ↦ hfound.scoped
  check ctx hclosed hext expected hexpected := by
    refine .bind_any fun type ↦ ?_
    split
    · exact checkTypeByInference_yields
        ((h ctx hclosed hext).mono fun _ hfound ↦ hfound.scoped)
    · exact .fail

theorem inferUnbounded_yields (hbody : body.WellScoped base) (hclosed : ctx.ScopesNames)
    (hext : ctx.Extends base) :
    (inferUnbounded polarity name body ctx).Yields (Classified.IsScopedType ctx) :=
  .bind_any fun _ ↦ quantifyOver_yields hbody hclosed hext (Ctx.scopes_univ 0)

theorem inferTypeBound_yields {type : Judged σ κ} (htype : type.WellScoped base)
    (hbody : body.WellScoped base) (hclosed : ctx.ScopesNames) (hext : ctx.Extends base) :
    (inferTypeBound fuel polarity name type body ctx).Yields (Classified.IsScopedType ctx) := by
  refine .bind_any fun _ ↦ ?_
  refine (htype.declare hclosed hext (boundName name)).bind fun binder hbinder ↦ ?_
  exact quantifyOver_yields hbody hclosed hext hbinder.2

theorem inferClassBound_yields {cls : Judged σ κ} (hname : ∀ x ∈ name, x ≠ anonymous)
    (hcls : cls.WellScoped base) (hbody : body.WellScoped base) (hclosed : ctx.ScopesNames)
    (hext : ctx.Extends base) :
    (inferClassBound fuel polarity name cls body ctx).Yields (Classified.IsScopedType ctx) := by
  refine .bind_any fun _ ↦ ?_
  cases name with
  | none => exact .fail
  | some x => exact quantifyOverClass_yields (hname x rfl) hcls hbody hclosed hext

end Quantifiers

/-! ### Records -/

/-- The invariant of the rules that take the members of a record in turn: `ctx` is the context of
`outer` with the members so far, whose values, also kept in `earlier`, lie in the scope of `outer`.
-/
structure MemberScope (outer ctx : Ctx) (earlier : Substitution) : Prop where
  closed : ctx.ScopesNames
  extendsOuter : ctx.Extends outer
  resolves : ctx.ResolvesIn outer
  images : ∀ y, ctx.maps y = true → y ≠ anonymous → outer.Scopes (Substitution.image earlier y)
  named : ∀ entry ∈ earlier, (.reference, anonymous) ∉ entry.2.names

namespace MemberScope

variable {outer ctx : Ctx} {earlier : Substitution}

theorem start (hclosed : outer.ScopesNames) : MemberScope outer outer [] where
  closed := hclosed
  extendsOuter := .refl outer
  resolves := hclosed.resolvesIn
  images y hy hname := Ctx.scopes_var_iff.mpr ⟨hy, hname⟩
  named := by simp

theorem bind (h : MemberScope outer ctx earlier) (name : String) {value : Classified Core}
    (hvalue : Check.Scoped outer value) :
    MemberScope outer (ctx.bind name value) (Substitution.insert earlier name value.term) where
  closed := h.closed.bind_value name (hvalue.1.extend h.extendsOuter)
    (hvalue.2.extend h.extendsOuter)
  extendsOuter := h.extendsOuter.bind name value
  resolves := h.resolves.bind hvalue.2
  images y hy hname := by
    rw [Substitution.image_insert]
    split
    · exact hvalue.2
    · rename_i hne
      exact h.images y ((Ctx.maps_bind.mp hy).resolve_left hne) hname
  named entry hentry := by
    simp only [Substitution.insert, List.mem_append, List.mem_singleton] at hentry
    rcases hentry with hentry | rfl
    · exact h.named entry (List.mem_filter.mp hentry).1
    · exact hvalue.2.named

/-- With the values of the earlier members put in, a member no longer mentions them. -/
theorem yields_subst (h : MemberScope outer ctx earlier) {t : Core} (ht : ctx.Scopes t) :
    (Check.subst earlier t : Check σ κ Core).Yields outer.Scopes := by
  refine Check.yields_stamp (Ctx.Scopes.subst ht.named (fun y hy ↦ ?_) h.named)
  obtain ⟨hmaps, hname⟩ := Ctx.scopes_var_iff.mp (ht.var hy)
  exact h.images y hmaps hname

end MemberScope

section Records

variable {base ctx outer : Ctx} {fuel : Nat} {self : Term} {members : List (String × Judged σ κ)}

theorem inferTelescope_yields (hclosed : ctx.ScopesNames) (hext : ctx.Extends base)
    (hmembers : ∀ member ∈ members, member.2.WellScoped base) :
    (inferTelescope fuel ctx members).Yields fun found ↦ ctx.Scopes (.signature found.2) := by
  induction members generalizing ctx with
  | nil => exact .pure Ctx.scopes_signature_nil
  | cons member members ih =>
    obtain ⟨hmember, hmembers⟩ := List.forall_mem_cons.mp hmembers
    refine .bind_any fun _ ↦ ?_
    refine (hmember.declare hclosed hext member.1).bind fun declared ⟨hname, hdeclared⟩ ↦ ?_
    refine (ih (hclosed.bindDeclared hdeclared) (hext.bind _ _) hmembers).bind fun rest hrest ↦ ?_
    refine .pure ((Ctx.scopes_signature_cons_iff declared.asVariable).mpr ⟨hdeclared, ?_⟩)
    rw [← hname]
    exact hrest

theorem inferSignature_yields (hmembers : ∀ member ∈ members, member.2.WellScoped base)
    (hclosed : ctx.ScopesNames) (hext : ctx.Extends base) :
    (inferSignature fuel members ctx).Yields (Check.Scoped ctx) := by
  refine (inferTelescope_yields hclosed hext hmembers).bind fun found hfound ↦ ?_
  exact .pure ⟨Ctx.scopes_univ _, hfound⟩

theorem signatureRule_wellScoped (hmembers : ∀ member ∈ members, member.2.WellScoped base) :
    (signatureRule fuel self members).WellScoped base where
  infer _ hclosed hext := inferSignature_yields hmembers hclosed hext
  check _ hclosed hext _ _ :=
    checkTypeByInference_yields (inferSignature_yields hmembers hclosed hext)

theorem inferMembers_yields {earlier : Substitution} (h : MemberScope outer ctx earlier)
    (hext : ctx.Extends base) (hmembers : ∀ member ∈ members, member.2.WellScoped base) :
    (inferMembers fuel ctx earlier members).Yields fun found ↦
      ctx.Scopes (.signature found.2.1) ∧ outer.Scopes (.record found.2.2) := by
  induction members generalizing ctx earlier with
  | nil => exact .pure ⟨Ctx.scopes_signature_nil, Ctx.scopes_record_nil⟩
  | cons member members ih =>
    obtain ⟨hmember, hmembers⟩ := List.forall_mem_cons.mp hmembers
    refine .bind_any fun _ ↦ ?_
    refine (hmember.infer ctx h.closed hext).bind fun defined hdefined ↦ ?_
    refine (Check.yields_normalized h.resolves hdefined).bind fun value hvalue ↦ ?_
    refine (h.yields_subst hdefined.2).bind fun elaborated helaborated ↦ ?_
    refine (ih (h.bind member.1 hvalue) (hext.bind _ _) hmembers).bind fun rest hrest ↦ ?_
    refine .pure ⟨?_, Ctx.scopes_record_cons_iff.mpr ⟨helaborated, hrest.2⟩⟩
    exact (Ctx.scopes_signature_cons_iff value).mpr ⟨hvalue.1.extend h.extendsOuter, hrest.1⟩

theorem checkMembers_yields {earlier : Substitution} {position : Nat} {types : Telescope}
    (h : MemberScope outer ctx earlier) (hext : ctx.Extends base)
    (hmembers : ∀ member ∈ members, member.2.WellScoped base)
    (htypes : ctx.Scopes (.signature types)) :
    (checkMembers fuel position ctx earlier members types).Yields fun found ↦
      outer.Scopes (.record found) := by
  induction members generalizing ctx earlier position types with
  | nil =>
    unfold checkMembers
    exact .pure Ctx.scopes_record_nil
  | cons member members ih =>
    obtain ⟨hmember, hmembers⟩ := List.forall_mem_cons.mp hmembers
    cases types with
    | nil => exact .pure Ctx.scopes_record_nil
    | cons rank type label types =>
      unfold checkMembers
      have hrest : member.1 = label → (do
          Check.ensureFresh ctx member.1
          let expected ← Check.normalized fuel ctx ⟨rank + 1, .univ rank, type⟩
          let elaborated ← member.2.check ctx expected
          let value ← Check.normalized fuel ctx ⟨rank, expected.term, elaborated⟩
          let member' ← Check.subst earlier elaborated
          let members ← checkMembers fuel (position + 1) (ctx.bind member.1 value)
            (Substitution.insert earlier member.1 value.term) members types
          return member' :: members : Check σ κ (List Core)).Yields fun found ↦
            outer.Scopes (.record found) := by
        rintro rfl
        have htype := ((Ctx.scopes_signature_cons_iff default).mp htypes).1
        refine .bind_any fun _ ↦ ?_
        refine (Check.yields_normalized h.closed.resolvesIn ⟨Ctx.scopes_univ _, htype⟩).bind
          fun expected hexpected ↦ ?_
        refine (hmember.check ctx h.closed hext expected hexpected.2).bind
          fun elaborated helaborated ↦ ?_
        refine (Check.yields_normalized h.resolves ⟨hexpected.2, helaborated⟩).bind
          fun value hvalue ↦ ?_
        refine (h.yields_subst helaborated).bind fun found hfound ↦ ?_
        have htypes := ((Ctx.scopes_signature_cons_iff value).mp htypes).2
        refine (ih (h.bind _ hvalue) (hext.bind _ _) hmembers htypes).bind fun rest hrest ↦ ?_
        exact .pure (Ctx.scopes_record_cons_iff.mpr ⟨hfound, hrest⟩)
      dsimp only
      split
      · exact .bind (P := fun _ ↦ False) .fail fun _ h ↦ h.elim
      · rename_i hlabel
        exact hrest (by simpa using hlabel)

theorem recordRule_wellScoped (hmembers : ∀ member ∈ members, member.2.WellScoped base) :
    (recordRule fuel self members).WellScoped base where
  infer ctx hclosed hext := by
    refine (inferMembers_yields (.start hclosed) hext hmembers).bind fun found hfound ↦ ?_
    exact .pure hfound
  check ctx hclosed hext expected hexpected := by
    refine (Check.yields_normalize hclosed.resolvesIn hexpected).bind fun type htype ↦ ?_
    split
    · rename_i types
      have hchecked : (do
          return .record (← checkMembers fuel 0 ctx [] members types) : Check σ κ Core).Yields
            ctx.Scopes := by
        refine (checkMembers_yields (.start hclosed) hext hmembers htype).bind fun found hfound ↦ ?_
        exact .pure hfound
      split
      · exact .bind (P := fun _ ↦ False) .fail fun _ h ↦ h.elim
      · exact hchecked
    · exact .fail

/-- The type of a member mentions earlier members only as projections of the record. -/
theorem findMember?_scopes {record : Classified Core} {name : String} {position : Nat}
    {earlier : Substitution} {types : Telescope} {member : Classified Nat}
    (hrecord : Check.Scoped ctx record)
    (htypes : (.reference, anonymous) ∉ types.names)
    (himages : ∀ y ∈ types.freeNames, ctx.Scopes (Substitution.image earlier y))
    (hearlier : ∀ entry ∈ earlier, (.reference, anonymous) ∉ entry.2.names)
    (h : findMember? record name position earlier types = some member) :
    ctx.Scopes member.type := by
  match types with
  | .nil => simp [findMember?] at h
  | .cons rank type label rest =>
    simp only [Telescope.names, List.mem_append, List.mem_cons, not_or] at htypes
    simp only [Telescope.freeNames, List.mem_append] at himages
    unfold findMember? at h
    split at h
    · simp only [Option.some.injEq] at h
      subst h
      exact Ctx.Scopes.subst htypes.1 (fun y hy ↦ himages y (.inl hy)) hearlier
    · have hproject : ctx.Scopes (.project record position) :=
        Ctx.scopes_proj_iff.mpr ⟨hrecord.1, hrecord.2⟩
      refine findMember?_scopes hrecord htypes.2.2 (fun y hy ↦ ?_) (fun entry hentry ↦ ?_) h
      · rw [Substitution.image_insert]
        split
        · exact hproject
        · rename_i hne
          exact himages y (.inr (by simpa [hne] using hy))
      · simp only [Substitution.insert, List.mem_append, List.mem_singleton] at hentry
        rcases hentry with hentry | rfl
        · exact hearlier entry (List.mem_filter.mp hentry).1
        · exact hproject.named

theorem inferAccess_yields {operator : Judged σ κ} {name : String}
    (hoperator : operator.WellScoped base) (hclosed : ctx.ScopesNames) (hext : ctx.Extends base) :
    (inferAccess fuel operator name ctx).Yields (Check.Scoped ctx) := by
  refine (hoperator.infer ctx hclosed hext).bind fun found hfound ↦ ?_
  refine (Check.yields_normalize hclosed.resolvesIn hfound.1).bind fun type htype ↦ ?_
  split
  · rename_i types
    have hrecord : Check.Scoped ctx ⟨found.rank, .signature types, found.term⟩ :=
      ⟨htype, hfound.2⟩
    dsimp only
    split
    · rename_i member hmember
      have hmemberType : ctx.Scopes member.type := by
        refine findMember?_scopes hrecord htype.named ?_ (by simp) hmember
        intro y hy
        exact htype.var hy
      refine (Check.yields_normalize hclosed.resolvesIn hmemberType).bind fun type htype ↦ ?_
      exact .pure ⟨htype, Ctx.scopes_proj_iff.mpr ⟨hrecord.1, hrecord.2⟩⟩
    · exact .fail
  · exact .fail

theorem accessRule_wellScoped {operator : Judged σ κ} {name : String}
    (hoperator : operator.WellScoped base) :
    (accessRule fuel self operator name).WellScoped base where
  infer _ hclosed hext := inferAccess_yields hoperator hclosed hext
  check _ hclosed hext _ _ :=
    checkTypeByInference_yields (inferAccess_yields hoperator hclosed hext)

end Records

/-! ### All terms -/

/-- What a surface term brings in from outside: identifiers, constants, and imports. -/
inductive Mention where
  | identifier (name : String)
  | constant (content : Classified Value)
  | imported (filename : String)

mutual

def Term.mentions : Term → List Mention
  | .univ _ => []
  | .var name => [.identifier name]
  | .lam param body => .identifier param :: body.mentions
  | .typedLam param type body => .identifier param :: (type.mentions ++ body.mentions)
  | .app operator argument => operator.mentions ++ argument.mentions
  | .quant _ bound name body =>
    name.toList.map .identifier ++ bound.mentions ++ body.mentions
  | .signature members => members.mentions
  | .record members => members.mentions
  | .access operator name => .identifier name :: operator.mentions
  | .danglingAccess name => [.identifier name]
  | .generic name bound => .identifier name :: bound.mentions
  | .anno type term => type.mentions ++ term.mentions
  | .letIn name definition body => .identifier name :: (definition.mentions ++ body.mentions)
  | .const content => [.constant content]
  | .typeOf term => term.mentions
  | .importing filename => [.imported filename]

def Bound.mentions : Bound → List Mention
  | .unbounded => []
  | .type type => type.mentions
  | .typeClass cls => cls.mentions

def Fields.mentions : Fields → List Mention
  | .nil => []
  | .cons name term rest => .identifier name :: (term.mentions ++ rest.mentions)

end

/-- No identifier is anonymous, and constants and imports have types in the scope of `base`. -/
def Mention.Scoped (host : Host σ κ) (base : Ctx) : Mention → Prop
  | .identifier name => name ≠ anonymous
  | .constant content => base.Scopes content.type
  | .imported filename => (host.resolve filename).Yields fun content ↦ base.Scopes content.type

section Leaves

variable {base : Ctx} {fuel : Nat} {self : Term}

theorem universeRule_wellScoped {rank : Nat} :
    (universeRule fuel self rank : Judged σ κ).WellScoped base where
  infer _ _ _ := .pure ⟨Ctx.scopes_univ _, Ctx.scopes_univ _⟩
  check _ _ _ _ _ := by
    refine .bind_any fun type ↦ ?_
    split
    · split
      · exact .pure (Ctx.scopes_univ _)
      · exact .fail
    · exact .fail

theorem annotationRule_wellScoped {type term : Judged σ κ} (htype : type.WellScoped base)
    (hterm : term.WellScoped base) : (annotationRule fuel self type term).WellScoped base where
  infer ctx hclosed hext := by
    refine (htype.declare hclosed hext anonymous).bind fun declared ⟨_, hdeclared⟩ ↦ ?_
    refine (hterm.check ctx hclosed hext declared.typeOf hdeclared).bind fun found hfound ↦ ?_
    exact .pure ⟨hdeclared, hfound⟩
  check ctx hclosed hext expected hexpected :=
    .bind_any fun _ ↦ .bind_any fun _ ↦ hterm.check ctx hclosed hext expected hexpected

end Leaves

mutual

theorem Term.rule_wellScoped (host : Host σ κ) (base : Ctx) :
    (e : Term) → (∀ m ∈ e.mentions, m.Scoped host base) → (e.rule host).WellScoped base
  | .univ rank, _ => universeRule_wellScoped
  | .var name, h => by
    have hname : name ≠ anonymous := h (.identifier name) (by simp [Term.mentions])
    refine wellScoped_of_infer fun ctx hclosed _ ↦ ?_
    exact (Check.yields_lookup hclosed hname).bind fun _ hfound ↦ .pure hfound
  | .lam param body, h => by
    obtain ⟨hparam, hbody⟩ := List.forall_mem_cons.mp h
    exact lambdaRule_wellScoped hparam (body.rule_wellScoped host base hbody).logged
  | .typedLam param type body, h => by
    obtain ⟨hparam, h⟩ := List.forall_mem_cons.mp h
    obtain ⟨htype, hbody⟩ := List.forall_mem_append.mp h
    exact typedLambdaRule_wellScoped hparam (type.rule_wellScoped host base htype).logged
      (body.rule_wellScoped host base hbody).logged
  | .app operator argument, h => by
    obtain ⟨hoperator, hargument⟩ := List.forall_mem_append.mp h
    have hfunction := operator.rule_wellScoped host base hoperator
    have hargument := (argument.rule_wellScoped host base hargument).logged
    cases operator with
    | lam param body =>
      have hbody := body.rule_wellScoped host base (List.forall_mem_cons.mp hoperator).2
      exact appliedLambdaRule_wellScoped hfunction hbody.logged hargument
    | typedLam param type body => exact appliedTypedLambdaRule_wellScoped hfunction hargument
    | _ => exact applicationRule_wellScoped hfunction.logged hargument
  | .quant polarity bound name body, h => by
    obtain ⟨h, hbody⟩ := List.forall_mem_append.mp h
    obtain ⟨hname, hbound⟩ := List.forall_mem_append.mp h
    have hbody := (body.rule_wellScoped host base hbody).logged
    refine quantifierRule_wellScoped fun ctx hclosed hext ↦ ?_
    refine bound.inferQuantifier_yields host base hbound hbody (fun x hx ↦ ?_) hclosed hext
    exact hname (.identifier x) (by simpa using hx)
  | .signature members, h => signatureRule_wellScoped (members.judged_wellScoped host base h)
  | .record members, h => recordRule_wellScoped (members.judged_wellScoped host base h)
  | .access operator name, h => by
    have hoperator := operator.rule_wellScoped host base (List.forall_mem_cons.mp h).2
    exact accessRule_wellScoped hoperator.logged
  | .danglingAccess _, _ => ⟨fun _ _ _ ↦ .fail, fun _ _ _ _ _ ↦ .fail⟩
  | .generic _ _, _ => ⟨fun _ _ _ ↦ .fail, fun _ _ _ _ _ ↦ .fail⟩
  | .anno type term, h => by
    obtain ⟨htype, hterm⟩ := List.forall_mem_append.mp h
    exact annotationRule_wellScoped (type.rule_wellScoped host base htype).logged
      (term.rule_wellScoped host base hterm).logged
  | .letIn name definition body, h => by
    obtain ⟨hdefinition, hbody⟩ := List.forall_mem_append.mp (List.forall_mem_cons.mp h).2
    exact letRule_wellScoped (definition.rule_wellScoped host base hdefinition).logged
      (body.rule_wellScoped host base hbody).logged
  | .const content, h => by
    have hcontent : base.Scopes content.type := h (.constant content) (by simp [Term.mentions])
    refine wellScoped_of_infer fun ctx _ hext ↦ ?_
    exact .pure ⟨hcontent.extend hext, Ctx.scopes_const _⟩
  | .typeOf term, h => by
    refine wellScoped_of_infer fun ctx hclosed hext ↦ ?_
    refine ((term.rule_wellScoped host base h).logged.infer ctx hclosed hext).bind
      fun found hfound ↦ ?_
    exact .pure ⟨Ctx.scopes_univ _, hfound.1⟩
  | .importing filename, h => by
    have himport : (host.resolve filename).Yields fun content ↦ base.Scopes content.type :=
      h (.imported filename) (by simp [Term.mentions])
    refine wellScoped_of_infer fun ctx _ hext ↦ ?_
    refine himport.mapError.bind fun content hcontent ↦ ?_
    exact .pure ⟨hcontent.extend hext, Ctx.scopes_const _⟩

theorem Bound.inferQuantifier_yields (host : Host σ κ) (base : Ctx) :
    (bound : Bound) → (∀ m ∈ bound.mentions, m.Scoped host base) → {polarity : Polarity} →
      {name : Option String} → {body : Judged σ κ} → body.WellScoped base →
      (∀ x ∈ name, x ≠ anonymous) → {ctx : Ctx} → ctx.ScopesNames → ctx.Extends base →
      (bound.inferQuantifier host polarity name body ctx).Yields (Classified.IsScopedType ctx)
  | .unbounded, _, _, _, _, hbody, _, _, hclosed, hext =>
    inferUnbounded_yields hbody hclosed hext
  | .type type, h, _, _, _, hbody, _, _, hclosed, hext =>
    inferTypeBound_yields (type.rule_wellScoped host base h).logged hbody hclosed hext
  | .typeClass cls, h, _, _, _, hbody, hname, _, hclosed, hext =>
    inferClassBound_yields hname (cls.rule_wellScoped host base h).logged hbody hclosed hext

theorem Fields.judged_wellScoped (host : Host σ κ) (base : Ctx) :
    (fields : Fields) → (∀ m ∈ fields.mentions, m.Scoped host base) →
      ∀ member ∈ fields.judged host, member.2.WellScoped base
  | .nil, _ => by simp [Fields.judged]
  | .cons name term rest, h => by
    obtain ⟨hterm, hrest⟩ := List.forall_mem_append.mp (List.forall_mem_cons.mp h).2
    rw [Fields.judged]
    exact List.forall_mem_cons.mpr ⟨(term.rule_wellScoped host base hterm).logged,
      rest.judged_wellScoped host base hrest⟩

end

/-- In a closed context, inference and checking return terms and types in the scope of that context,
if the expected type is and if the term brings in nothing that is not. -/
theorem Term.elaboration_wellScoped (host : Host σ κ) (ctx : Ctx) (e : Term)
    (hclosed : ctx.Closed) (hmentions : ∀ m ∈ e.mentions, m.Scoped host ctx) :
    ((e.infer host ctx).Yields fun found ↦ ctx.Scopes found.type ∧ ctx.Scopes found.term) ∧
      ∀ expected : Classified Core, ctx.Scopes expected.term →
        (e.check host ctx expected).Yields ctx.Scopes := by
  have hrule := (e.rule_wellScoped host ctx hmentions).logged
  exact ⟨hrule.infer ctx hclosed.scopesNames (.refl ctx),
    hrule.check ctx hclosed.scopesNames (.refl ctx)⟩

/-- A type variable of a let binding does not escape. -/
theorem Term.elaboration_wellScoped_let :
    let ctx : Ctx := ⟨[("int", ⟨1, .univ 0, .var "int"⟩)]⟩
    let e : Term := .letIn "T" (.var "int") (.anno (.var "T") (.const ⟨0, .var "int", .int 3⟩))
    ((e.infer (Host.withoutImports 10) ctx).Yields fun found ↦
        ctx.Scopes found.type ∧ ctx.Scopes found.term) ∧
      ∀ expected : Classified Core, ctx.Scopes expected.term →
        (e.check (Host.withoutImports 10) ctx expected).Yields ctx.Scopes := by
  intro ctx e
  have hint : ctx.Scopes (.var "int") := Ctx.scopes_var_iff.mpr ⟨rfl, by decide⟩
  refine Term.elaboration_wellScoped _ ctx e ?_ ?_
  · intro name judgement hmem
    obtain ⟨rfl, rfl⟩ := Prod.mk.inj (List.mem_singleton.mp hmem)
    exact ⟨Ctx.scopes_univ 0, fun _ ↦ hint⟩
  · intro m hm
    simp only [e, Term.mentions, List.cons_append, List.nil_append, List.mem_cons,
      List.not_mem_nil, or_false] at hm
    rcases hm with rfl | rfl | rfl | rfl
    · exact (by decide : "T" ≠ anonymous)
    · exact (by decide : "int" ≠ anonymous)
    · exact (by decide : "T" ≠ anonymous)
    · exact hint

/-- That no anonymous variable is free is not enough. The context below is closed and no anonymous
variable is free in it, but one is bound by a quantifier of that name; applying `f` leaves its
variable behind. -/
theorem Term.anonymous_escapes :
    let ctx : Ctx :=
      ⟨[("f", ⟨0, .quant .universal 1 (.univ 0) "*" (.var "*"), .var "f"⟩),
        ("int", ⟨1, .univ 0, .var "int"⟩)]⟩
    let e : Term := .app (.var "f") (.var "int")
    (∀ entry ∈ ctx.vars, ∀ x,
        entry.2.type.occursFree x = true ∨ entry.2.term.occursFree x = true →
          ctx.maps x = true ∧ x ≠ anonymous) ∧
      (∀ m ∈ e.mentions, m.Scoped (Host.withoutImports 10) ctx) ∧
      ∃ found, (e.infer (Host.withoutImports 10) ctx).outcome ⟨(), .empty⟩ = .ok found ∧
        found.type.occursFree anonymous = true ∧ ctx.maps anonymous = false := by
  intro ctx e
  refine ⟨?_, ?_, _, rfl, rfl, rfl⟩
  · intro entry hentry x hx
    simp only [Core.occursFree_iff_mem] at hx
    simp only [ctx, List.mem_cons, List.not_mem_nil, or_false] at hentry
    rcases hentry with rfl | rfl <;> simp [Core.freeNames] at hx <;> subst hx <;> decide
  · intro m hm
    simp only [e, Term.mentions, List.cons_append, List.nil_append, List.mem_cons,
      List.not_mem_nil, or_false] at hm
    rcases hm with rfl | rfl
    · exact (by decide : "f" ≠ anonymous)
    · exact (by decide : "int" ≠ anonymous)

end RankedTT
