import RankedTT.Proofs.WellScoped

/-!
Accepted programs contain no shadowing. A place where a term binds a name is clear in a context if
the name is bound neither in the context nor by a binder that has the place in its scope; the
anonymous name binds nothing and may be repeated. A rule guards places if, in whatever context it
has an answer, by inference or by checking, these places are clear. Each construct tests the name
that it binds and judges the rest of its scope in the extended context, where that name counts as
bound; so it guards what its parts guard, seen from outside the binder, and its own binder.
-/

set_option autoImplicit false
set_option relaxedAutoImplicit false

namespace RankedTT

open Run

/-! ### The places where a term binds names -/

/-- A place where a name is bound, with the names of the binders around it that have the place in
their scope, the innermost first. -/
structure Binder where
  name : String
  enclosing : List String
deriving DecidableEq, Repr

/-- The same place, as part of the scope of another binder. -/
def Binder.under (name : String) (place : Binder) : Binder :=
  { place with enclosing := place.enclosing ++ [name] }

/-- The binder of `name` together with the binders in its scope. -/
def Binder.over (name : String) (scope : List Binder) : List Binder :=
  ⟨name, []⟩ :: scope.map (Binder.under name)

mutual

/-- All places where a term binds a name. A quantifier without a name binds the anonymous name. -/
def Term.binders : Term → List Binder
  | .univ _ => []
  | .var _ => []
  | .lam param body => Binder.over param body.binders
  | .typedLam param type body => type.binders ++ Binder.over param body.binders
  | .app operator argument => operator.binders ++ argument.binders
  | .quant _ bound name body => bound.binders ++ Binder.over (boundName name) body.binders
  | .signature members => members.binders
  | .record members => members.binders
  | .access operator _ => operator.binders
  | .danglingAccess _ => []
  | .generic _ bound => bound.binders
  | .anno type term => type.binders ++ term.binders
  | .letIn name definition body => definition.binders ++ Binder.over name body.binders
  | .const _ => []
  | .typeOf term => term.binders
  | .importing _ => []

def Bound.binders : Bound → List Binder
  | .unbounded => []
  | .type type => type.binders
  | .typeClass cls => cls.binders

/-- The name of a member is bound in the members after it. -/
def Fields.binders : Fields → List Binder
  | .nil => []
  | .cons name term rest => term.binders ++ Binder.over name rest.binders

end

/-! ### Places that are clear in a context -/

/-- Binding the name at this place hides no other binding. -/
def Binder.ClearIn (ctx : Ctx) (place : Binder) : Prop :=
  place.name ≠ anonymous → ctx.maps place.name = false ∧ place.name ∉ place.enclosing

def Ctx.Clears (ctx : Ctx) (places : List Binder) : Prop := ∀ place ∈ places, place.ClearIn ctx

namespace Ctx

variable {ctx : Ctx} {name : String} {judgement : Classified Core} {scope places : List Binder}

theorem clears_nil : ctx.Clears [] := nofun

theorem clears_append_iff : ctx.Clears (scope ++ places) ↔ ctx.Clears scope ∧ ctx.Clears places :=
  List.forall_mem_append

/-- What is clear inside the scope of a binder is clear outside, that binder counted. -/
theorem Clears.under (h : (ctx.bind name judgement).Clears scope) :
    ctx.Clears (scope.map (Binder.under name)) := by
  intro place hplace
  obtain ⟨inner, hinner, rfl⟩ := List.mem_map.mp hplace
  intro hname
  obtain ⟨hmaps, henclosing⟩ := h inner hinner hname
  have hmaps' : ¬ (inner.name = name ∨ ctx.maps inner.name = true) :=
    fun h ↦ Bool.eq_false_iff.mp hmaps (maps_bind.mpr h)
  obtain ⟨hne, hctx⟩ := not_or.mp hmaps'
  refine ⟨Bool.eq_false_iff.mpr hctx, ?_⟩
  change inner.name ∉ inner.enclosing ++ [name]
  simp [henclosing, hne]

/-- A fresh name, and the scope in which it is bound. -/
theorem Clears.over (hfresh : ctx.isFresh name = true)
    (h : (ctx.bind name judgement).Clears scope) : ctx.Clears (Binder.over name scope) := by
  refine List.forall_mem_cons.mpr ⟨fun hname ↦ ⟨?_, List.not_mem_nil⟩, h.under⟩
  refine Bool.eq_false_iff.mpr fun hmaps ↦ ?_
  exact ne_of_isFresh hfresh hname hmaps rfl

/-- What is clear in an extension of a context is clear in the context. -/
theorem Clears.of_bind (h : (ctx.bind name judgement).Clears places) : ctx.Clears places := by
  intro place hplace hname
  obtain ⟨hmaps, henclosing⟩ := h place hplace hname
  refine ⟨Bool.eq_false_iff.mpr fun hctx ↦ ?_, henclosing⟩
  rw [maps_bind.mpr (.inr hctx)] at hmaps
  exact Bool.noConfusion hmaps

end Ctx

/-! ### Rules -/

variable {σ κ : Type}

/-- Where the rule has an answer, the places are clear. -/
structure Judged.Guards (rule : Judged σ κ) (places : List Binder) : Prop where
  infer : ∀ ctx : Ctx, (rule.infer ctx).Yields fun _ ↦ ctx.Clears places
  check : ∀ (ctx : Ctx) (expected : Classified Core),
    (rule.check ctx expected).Yields fun _ ↦ ctx.Clears places

section Steps

variable {ctx : Ctx} {rule : Judged σ κ} {fuel : Nat} {places : List Binder}

theorem Judged.Guards.logged (h : rule.Guards places) : rule.logged.Guards places where
  infer ctx := (h.infer ctx).bind fun _ hclear ↦ .bind_any fun _ ↦ .pure hclear
  check ctx expected := .bind_any fun _ ↦ h.check ctx expected

theorem Judged.Guards.ensure (h : rule.Guards places) (ctx : Ctx)
    (expected : Option (Classified Core)) :
    (rule.ensure ctx expected).Yields fun _ ↦ ctx.Clears places := by
  cases expected with
  | none => exact h.infer ctx
  | some expected =>
    exact (h.check ctx expected).bind fun _ hclear ↦ .ofOption fun _ _ ↦ hclear

theorem Judged.Guards.declare (h : rule.Guards places) (ctx : Ctx) (name : String) :
    (rule.declare fuel ctx name).Yields fun declared ↦
      declared.term = name ∧ ctx.Clears places := by
  refine (h.infer ctx).bind fun _ hclear ↦ .bind_any fun type ↦ ?_
  refine .ofOption fun declared hdeclared ↦ ⟨?_, hclear⟩
  obtain ⟨_, -, rfl⟩ := Classified.inhabitant?_eq_some_iff.mp hdeclared
  rfl

theorem checkByInference_clears {infer : Ctx → Check σ κ (Classified Core)}
    {expected : Classified Core} (h : (infer ctx).Yields fun _ ↦ ctx.Clears places) :
    (checkByInference fuel infer ctx expected).Yields fun _ ↦ ctx.Clears places :=
  h.bind fun _ hclear ↦ .bind_any fun _ ↦ .pure hclear

theorem checkTypeByInference_clears {term : Term} {infer : Ctx → Check σ κ (Classified Core)}
    {expected : Classified Core} (h : (infer ctx).Yields fun _ ↦ ctx.Clears places) :
    (checkTypeByInference fuel term infer ctx expected).Yields fun _ ↦ ctx.Clears places :=
  checkTypeByInference_yields_of_found h fun _ hclear ↦ checkByInference_clears (.pure hclear)

theorem inferredRule_guards {self : Term} {infer : Ctx → Check σ κ (Classified Core)}
    (h : ∀ ctx, (infer ctx).Yields fun _ ↦ ctx.Clears places) :
    (inferredRule fuel self infer).Guards places where
  infer := h
  check ctx _ := checkByInference_clears (h ctx)

/-- A rule whose term binds nothing. -/
theorem Judged.guards_nil (rule : Judged σ κ) : rule.Guards [] where
  infer _ _ _ _ _ := Ctx.clears_nil
  check _ _ _ _ _ _ := Ctx.clears_nil

end Steps

section Functions

variable {fuel : Nat} {self : Term} {name param : String}
  {definition body operator argument function type : Judged σ κ}
  {inDefinition inBody inOperator inArgument inFunction inType : List Binder}

theorem elaborateLet_clears (hdefinition : definition.Guards inDefinition)
    (hbody : body.Guards inBody) (expected : Option (Classified Core)) (ctx : Ctx) :
    (elaborateLet fuel name definition body expected ctx).Yields fun _ ↦
      ctx.Clears (inDefinition ++ Binder.over name inBody) := by
  refine Check.yields_ensureFresh.bind fun _ hfresh ↦ ?_
  refine (hdefinition.infer ctx).bind fun _ hdefined ↦ .bind_any fun value ↦ ?_
  refine (hbody.ensure (ctx.bind name value) expected).bind fun _ hscope ↦ ?_
  refine .bind_any fun _ ↦ .bind_any fun _ ↦ .pure ?_
  exact Ctx.clears_append_iff.mpr ⟨hdefined, hscope.over hfresh⟩

theorem letRule_guards (hdefinition : definition.Guards inDefinition) (hbody : body.Guards inBody) :
    (letRule fuel self name definition body).Guards
      (inDefinition ++ Binder.over name inBody) where
  infer ctx := elaborateLet_clears hdefinition hbody none ctx
  check ctx expected :=
    (elaborateLet_clears hdefinition hbody (some expected) ctx).bind fun _ hclear ↦ .pure hclear

/-- A lambda with or without an annotation; without one, there are no places in it. -/
theorem checkLambda_clears (type? : Option (Judged σ κ))
    (htype : type?.elim (inType = []) (·.Guards inType)) (hbody : body.Guards inBody) (ctx : Ctx)
    (expected : Classified Core) :
    (checkLambda fuel self param type? body ctx expected).Yields fun _ ↦
      ctx.Clears (inType ++ Binder.over param inBody) := by
  refine .bind_any fun _ ↦ ?_
  split
  · rename_i rank domain name codomain
    refine Check.yields_ensureFresh.bind fun _ hfresh ↦ ?_
    -- once the annotation is dealt with
    have hrest (hclear : ctx.Clears inType) : (do
        let codomain ←
          if name == anonymous || name == param then pure codomain
          else Check.subst (.single name (.var param)) codomain
        let body ← body.check (ctx.bindDeclared ⟨rank, domain, param⟩) (expected.withTerm codomain)
        Check.lambda param body : Check σ κ Core).Yields fun _ ↦
          ctx.Clears (inType ++ Binder.over param inBody) := by
      have hscope (codomain : Core) : (do
          let body ←
            body.check (ctx.bindDeclared ⟨rank, domain, param⟩) (expected.withTerm codomain)
          Check.lambda param body : Check σ κ Core).Yields fun _ ↦
            ctx.Clears (inType ++ Binder.over param inBody) := by
        refine (hbody.check _ _).bind fun _ hscope ↦ ?_
        exact fun _ _ _ _ ↦ Ctx.clears_append_iff.mpr ⟨hclear, hscope.over hfresh⟩
      split
      · exact .bind_any hscope
      · exact .bind_any hscope
    cases type? with
    | none =>
      obtain rfl : inType = [] := htype
      exact hrest Ctx.clears_nil
    | some type =>
      refine (Judged.Guards.declare htype ctx param).bind fun _ hdeclared ↦ ?_
      exact .bind_any fun _ ↦ hrest hdeclared.2
  · exact .fail
  · exact .fail

theorem lambdaRule_guards (hbody : body.Guards inBody) :
    (lambdaRule fuel self param body).Guards (Binder.over param inBody) where
  infer _ := .fail
  check ctx expected :=
    checkLambda_clears none (show none.elim ([] = []) _ from rfl) hbody ctx expected

theorem typedLambdaRule_guards (htype : type.Guards inType) (hbody : body.Guards inBody) :
    (typedLambdaRule fuel self param type body).Guards (inType ++ Binder.over param inBody) where
  infer ctx := by
    refine Check.yields_ensureFresh.bind fun _ hfresh ↦ ?_
    refine (htype.declare ctx param).bind fun declared ⟨hname, hclear⟩ ↦ ?_
    subst hname
    refine (hbody.infer (ctx.bindDeclared declared)).bind fun _ hscope ↦ .bind_any fun type ↦ ?_
    dsimp only
    split
    · exact .bind (P := fun _ ↦ False) .fail fun _ h ↦ h.elim
    · refine .bind_any fun _ ↦ .pure ?_
      exact Ctx.clears_append_iff.mpr ⟨hclear, hscope.over hfresh⟩
  check ctx expected := checkLambda_clears (some type) htype hbody ctx expected

theorem inferApplication_clears (hoperator : operator.Guards inOperator)
    (hargument : argument.Guards inArgument) (ctx : Ctx) :
    (inferApplication fuel self operator argument ctx).Yields fun _ ↦
      ctx.Clears (inOperator ++ inArgument) := by
  refine (hoperator.infer ctx).bind fun _ hfunction ↦ .bind_any fun _ ↦ ?_
  split
  · refine (hargument.check ctx _).bind fun _ hoperand ↦ .bind_any fun _ ↦ .pure ?_
    exact Ctx.clears_append_iff.mpr ⟨hfunction, hoperand⟩
  · exact .fail
  · exact .fail

theorem applicationRule_guards (hoperator : operator.Guards inOperator)
    (hargument : argument.Guards inArgument) :
    (applicationRule fuel self operator argument).Guards (inOperator ++ inArgument) where
  infer ctx := inferApplication_clears hoperator hargument ctx
  check ctx _ := checkByInference_clears (inferApplication_clears hoperator hargument ctx)

theorem checkAppliedLambda_clears (hfunction : function.Guards inFunction)
    (hargument : argument.Guards inArgument) (ctx : Ctx) (expected : Classified Core) :
    (checkAppliedLambda function argument ctx expected).Yields fun _ ↦
      ctx.Clears (inFunction ++ inArgument) := by
  refine (hargument.infer ctx).bind fun _ hoperand ↦ ?_
  refine (hfunction.check ctx _).bind fun _ hlambda ↦ .bind_any fun _ ↦ .pure ?_
  exact Ctx.clears_append_iff.mpr ⟨hlambda, hoperand⟩

/-- Inference treats the applied lambda as a let binding, which meets the argument first. -/
theorem appliedLambdaRule_guards (hfunction : function.Guards (Binder.over param inBody))
    (hbody : body.Guards inBody) (hargument : argument.Guards inArgument) :
    (appliedLambdaRule fuel self function param body argument).Guards
      (Binder.over param inBody ++ inArgument) where
  infer ctx := (elaborateLet_clears hargument hbody none ctx).mono fun _ hclear ↦ by
    rw [Ctx.clears_append_iff] at hclear ⊢
    exact hclear.symm
  check ctx expected := checkAppliedLambda_clears hfunction hargument ctx expected

theorem appliedTypedLambdaRule_guards (hfunction : function.Guards inFunction)
    (hargument : argument.Guards inArgument) :
    (appliedTypedLambdaRule fuel self function argument).Guards (inFunction ++ inArgument) where
  infer ctx := inferApplication_clears hfunction.logged hargument ctx
  check ctx expected := checkAppliedLambda_clears hfunction hargument ctx expected

end Functions

section Quantifiers

variable {fuel : Nat} {self : Term} {polarity : Polarity} {name : Option String}
  {type cls body : Judged σ κ} {inType inBody : List Binder}

theorem quantifyOver_clears {binder : Classified String} {ctx : Ctx}
    (hbody : body.Guards inBody) :
    (quantifyOver polarity binder body ctx).Yields fun _ ↦
      (ctx.bindDeclared binder).Clears inBody := by
  refine (hbody.infer _).bind fun range hscope ↦ ?_
  split
  · exact .pure hscope
  · exact .fail

theorem quantifierRule_guards {infer : Ctx → Check σ κ (Classified Core)} {places : List Binder}
    (h : ∀ ctx, (infer ctx).Yields fun _ ↦ ctx.Clears places) :
    (quantifierRule fuel self infer).Guards places where
  infer := h
  check ctx expected := by
    refine .bind_any fun _ ↦ ?_
    split
    · exact checkTypeByInference_clears (h ctx)
    · exact .fail

theorem inferUnbounded_clears (hbody : body.Guards inBody) (ctx : Ctx) :
    (inferUnbounded polarity name body ctx).Yields fun _ ↦
      ctx.Clears (Binder.over (boundName name) inBody) := by
  refine Check.yields_ensureFresh.bind fun _ hfresh ↦ ?_
  exact (quantifyOver_clears hbody).mono fun _ hscope ↦ hscope.over hfresh

theorem inferTypeBound_clears (htype : type.Guards inType) (hbody : body.Guards inBody)
    (ctx : Ctx) :
    (inferTypeBound fuel polarity name type body ctx).Yields fun _ ↦
      ctx.Clears (inType ++ Binder.over (boundName name) inBody) := by
  refine Check.yields_ensureFresh.bind fun _ hfresh ↦ ?_
  refine (htype.declare ctx (boundName name)).bind fun binder ⟨hname, hclear⟩ ↦ ?_
  refine (quantifyOver_clears hbody).mono fun _ hscope ↦ ?_
  refine Ctx.clears_append_iff.mpr ⟨hclear, ?_⟩
  rw [← hname] at hfresh ⊢
  exact hscope.over hfresh

/-- The instance of the class is bound without a name, inside the scope of the parameter. -/
theorem inferClassBound_clears (hcls : cls.Guards inType) (hbody : body.Guards inBody)
    (ctx : Ctx) :
    (inferClassBound fuel polarity name cls body ctx).Yields fun _ ↦
      ctx.Clears (inType ++ Binder.over (boundName name) inBody) := by
  refine Check.yields_ensureFresh.bind fun _ hfresh ↦ ?_
  cases name with
  | none => exact .fail
  | some x =>
    refine (hcls.infer ctx).bind fun _ hclear ↦ .bind_any fun _ ↦ ?_
    split
    · split
      · refine Yields.bind (quantifyOver_clears hbody) fun _ hscope ↦ .pure ?_
        exact Ctx.clears_append_iff.mpr ⟨hclear, hscope.of_bind.over hfresh⟩
      · exact .fail
    · exact .fail

end Quantifiers

section Records

variable {fuel : Nat} {self : Term}

/-- Rules for the members of a record or a record type guard the places in these members: each
member is in the scope of the names of the members before it. -/
inductive Judged.GuardsMembers : List (String × Judged σ κ) → List Binder → Prop
  | nil : GuardsMembers [] []
  | cons {rule : Judged σ κ} {members : List (String × Judged σ κ)} {inMember inRest : List Binder}
      (name : String) (member : rule.Guards inMember) (rest : GuardsMembers members inRest) :
      GuardsMembers ((name, rule) :: members) (inMember ++ Binder.over name inRest)

variable {members : List (String × Judged σ κ)} {places : List Binder}

theorem inferTelescope_clears (h : Judged.GuardsMembers members places) (ctx : Ctx) :
    (inferTelescope fuel ctx members).Yields fun _ ↦ ctx.Clears places := by
  induction h generalizing ctx with
  | nil => exact .pure Ctx.clears_nil
  | cons name member _ ih =>
    refine Check.yields_ensureFresh.bind fun _ hfresh ↦ ?_
    refine (member.declare ctx name).bind fun declared ⟨hname, hclear⟩ ↦ ?_
    refine (ih (ctx.bindDeclared declared)).bind fun _ hscope ↦ .pure ?_
    subst hname
    exact Ctx.clears_append_iff.mpr ⟨hclear, hscope.over hfresh⟩

theorem inferSignature_clears (h : Judged.GuardsMembers members places) (ctx : Ctx) :
    (inferSignature fuel members ctx).Yields fun _ ↦ ctx.Clears places :=
  (inferTelescope_clears h ctx).bind fun _ hclear ↦ .pure hclear

theorem signatureRule_guards (h : Judged.GuardsMembers members places) :
    (signatureRule fuel self members).Guards places where
  infer ctx := inferSignature_clears h ctx
  check ctx _ := checkTypeByInference_clears (inferSignature_clears h ctx)

theorem inferMembers_clears (h : Judged.GuardsMembers members places) (ctx : Ctx)
    (earlier : Substitution) :
    (inferMembers fuel ctx earlier members).Yields fun _ ↦ ctx.Clears places := by
  induction h generalizing ctx earlier with
  | nil => exact .pure Ctx.clears_nil
  | cons name member _ ih =>
    refine Check.yields_ensureFresh.bind fun _ hfresh ↦ ?_
    refine (member.infer ctx).bind fun _ hclear ↦ .bind_any fun value ↦ .bind_any fun _ ↦ ?_
    refine (ih (ctx.bind name value) _).bind fun _ hscope ↦ .pure ?_
    exact Ctx.clears_append_iff.mpr ⟨hclear, hscope.over hfresh⟩

/-- The record and the signature have the same length, so no member is left unchecked. -/
theorem checkMembers_clears (h : Judged.GuardsMembers members places) (position : Nat) (ctx : Ctx)
    (earlier : Substitution) {types : Telescope} (hlength : types.length = members.length) :
    (checkMembers fuel position ctx earlier members types).Yields fun _ ↦ ctx.Clears places := by
  induction h generalizing position ctx earlier types with
  | nil => exact fun _ _ _ _ ↦ Ctx.clears_nil
  | @cons rule members inMember inRest name member _ ih =>
    cases types with
    | nil => cases hlength
    | cons rank type label types =>
      have hlength : types.length = members.length := Nat.succ.inj hlength
      unfold checkMembers
      have hrest : (do
          Check.ensureFresh ctx name
          let expected ← Check.normalized fuel ctx ⟨rank + 1, .univ rank, type⟩
          let elaborated ← rule.check ctx expected
          let value ← Check.normalized fuel ctx ⟨rank, expected.term, elaborated⟩
          let member ← Check.subst earlier elaborated
          let members ← checkMembers fuel (position + 1) (ctx.bind name value)
            (Substitution.insert earlier name value.term) members types
          return member :: members : Check σ κ (List Core)).Yields fun _ ↦
            ctx.Clears (inMember ++ Binder.over name inRest) := by
        refine Check.yields_ensureFresh.bind fun _ hfresh ↦ .bind_any fun expected ↦ ?_
        refine (member.check ctx expected).bind fun _ hclear ↦ ?_
        refine .bind_any fun value ↦ .bind_any fun _ ↦ ?_
        refine (ih _ (ctx.bind name value) _ hlength).bind fun _ hscope ↦ .pure ?_
        exact Ctx.clears_append_iff.mpr ⟨hclear, hscope.over hfresh⟩
      dsimp only
      split
      · exact .bind (P := fun _ ↦ False) .fail fun _ h ↦ h.elim
      · exact hrest

theorem recordRule_guards (h : Judged.GuardsMembers members places) :
    (recordRule fuel self members).Guards places where
  infer ctx := (inferMembers_clears h ctx []).bind fun _ hclear ↦ .pure hclear
  check ctx expected := by
    refine .bind_any fun _ ↦ ?_
    split
    · rename_i types
      dsimp only
      split
      · exact .bind (P := fun _ ↦ False) .fail fun _ h ↦ h.elim
      · rename_i hlength
        have hlength : types.length = members.length := by simpa using hlength
        exact (checkMembers_clears h 0 ctx [] hlength).bind fun _ hclear ↦ .pure hclear
    · exact .fail

theorem inferAccess_clears {operator : Judged σ κ} {name : String}
    (hoperator : operator.Guards places) (ctx : Ctx) :
    (inferAccess fuel operator name ctx).Yields fun _ ↦ ctx.Clears places :=
  (hoperator.infer ctx).bind fun _ hclear _ _ _ _ ↦ hclear

theorem accessRule_guards {operator : Judged σ κ} {name : String}
    (hoperator : operator.Guards places) :
    (accessRule fuel self operator name).Guards places where
  infer ctx := inferAccess_clears hoperator ctx
  check ctx _ := checkTypeByInference_clears (inferAccess_clears hoperator ctx)

end Records

theorem annotationRule_guards {fuel : Nat} {self : Term} {type term : Judged σ κ}
    {inType inTerm : List Binder} (htype : type.Guards inType) (hterm : term.Guards inTerm) :
    (annotationRule fuel self type term).Guards (inType ++ inTerm) where
  infer ctx := by
    refine (htype.declare ctx anonymous).bind fun declared hdeclared ↦ ?_
    refine (hterm.check ctx declared.typeOf).bind fun _ hclear ↦ .pure ?_
    exact Ctx.clears_append_iff.mpr ⟨hdeclared.2, hclear⟩
  check ctx expected := by
    refine (htype.declare ctx anonymous).bind fun _ hdeclared ↦ .bind_any fun _ ↦ ?_
    exact (hterm.check ctx expected).mono fun _ hclear ↦
      Ctx.clears_append_iff.mpr ⟨hdeclared.2, hclear⟩

/-! ### All terms -/

mutual

theorem Term.rule_guards (host : Host σ κ) : (e : Term) → (e.rule host).Guards e.binders
  | .univ _ | .var _ | .danglingAccess _ | .const _ | .importing _ => Judged.guards_nil _
  | .generic _ _ => ⟨fun _ ↦ .fail, fun _ _ ↦ .fail⟩
  | .lam _ body => lambdaRule_guards (body.rule_guards host).logged
  | .typedLam _ type body =>
    typedLambdaRule_guards (type.rule_guards host).logged (body.rule_guards host).logged
  | .app operator argument => by
    have hfunction := operator.rule_guards host
    have hargument := (argument.rule_guards host).logged
    cases operator with
    | lam _ body =>
      exact appliedLambdaRule_guards hfunction (body.rule_guards host).logged hargument
    | typedLam _ _ _ => exact appliedTypedLambdaRule_guards hfunction hargument
    | _ => exact applicationRule_guards hfunction.logged hargument
  | .quant _ bound name body =>
    quantifierRule_guards (bound.inferQuantifier_clears host (body.rule_guards host).logged)
  | .signature members => signatureRule_guards (members.judged_guards host)
  | .record members => recordRule_guards (members.judged_guards host)
  | .access operator _ => accessRule_guards (operator.rule_guards host).logged
  | .anno type term =>
    annotationRule_guards (type.rule_guards host).logged (term.rule_guards host).logged
  | .letIn _ definition body =>
    letRule_guards (definition.rule_guards host).logged (body.rule_guards host).logged
  | .typeOf term => inferredRule_guards fun ctx ↦
    ((term.rule_guards host).logged.infer ctx).bind fun _ hclear ↦ .pure hclear

theorem Bound.inferQuantifier_clears (host : Host σ κ) {polarity : Polarity}
    {name : Option String} {body : Judged σ κ} {inBody : List Binder}
    (hbody : body.Guards inBody) : (bound : Bound) → (ctx : Ctx) →
      (bound.inferQuantifier host polarity name body ctx).Yields fun _ ↦
        ctx.Clears (bound.binders ++ Binder.over (boundName name) inBody)
  | .unbounded, ctx => inferUnbounded_clears hbody ctx
  | .type type, ctx => inferTypeBound_clears (type.rule_guards host).logged hbody ctx
  | .typeClass cls, ctx => inferClassBound_clears (cls.rule_guards host).logged hbody ctx

theorem Fields.judged_guards (host : Host σ κ) :
    (fields : Fields) → Judged.GuardsMembers (fields.judged host) fields.binders
  | .nil => .nil
  | .cons name term rest => .cons name (term.rule_guards host).logged (rest.judged_guards host)

end

/-- Accepted programs contain no shadowing. If a term has a type, or has been checked against one,
every binder in it has a name that is bound neither in the context nor by a binder around it; only
the anonymous name may be repeated. -/
theorem Term.binders_fresh (host : Host σ κ) (ctx : Ctx) (e : Term) {start : Progress σ}
    (haccepted : (∃ judgement later, (e.infer host ctx).Returns start judgement later) ∨
      ∃ expected elaborated later, (e.check host ctx expected).Returns start elaborated later) :
    ∀ place ∈ e.binders, place.name ≠ anonymous →
      ctx.maps place.name = false ∧ place.name ∉ place.enclosing := by
  have hrule := (e.rule_guards host).logged
  rcases haccepted with ⟨judgement, later, hinferred⟩ | ⟨expected, elaborated, later, hchecked⟩
  · exact hrule.infer ctx start judgement later hinferred
  · exact hrule.check ctx expected start elaborated later hchecked

/-- `let T = int in struct { a : T; f : (x : T) -> T -> T }`: the name of the last arrow is
anonymous, and all others differ. -/
theorem Term.binders_fresh_signature :
    let ctx : Ctx := ⟨[("int", ⟨1, .univ 0, .var "int"⟩)]⟩
    let function : Term :=
      .quant .universal (.type (.var "T")) (some "x") (.arrow (.var "T") (.var "T"))
    let e : Term := .letIn "T" (.var "int")
      (.signature (.cons "a" (.var "T") (.cons "f" function .nil)))
    e.binders = [⟨"T", []⟩, ⟨"a", ["T"]⟩, ⟨"x", ["a", "T"]⟩, ⟨"*", ["x", "a", "T"]⟩,
        ⟨"f", ["a", "T"]⟩] ∧
      (∃ judgement later,
        (e.infer (Host.withoutImports 10) ctx).Returns ⟨(), .empty⟩ judgement later) ∧
      ∀ place ∈ e.binders, place.name ≠ anonymous →
        ctx.maps place.name = false ∧ place.name ∉ place.enclosing := by
  intro ctx function e
  have haccepted : ∃ judgement later,
      (e.infer (Host.withoutImports 10) ctx).Returns ⟨(), .empty⟩ judgement later := by
    obtain ⟨judgement, hjudgement, -⟩ := exists_eq_ok_of_any (p := fun _ ↦ true)
      (o := (e.infer (Host.withoutImports 10) ctx).outcome ⟨(), .empty⟩) (by decide +kernel)
    exact ⟨judgement, outcome_eq_ok_iff.mp hjudgement⟩
  exact ⟨rfl, haccepted, Term.binders_fresh _ ctx e (.inl haccepted)⟩

end RankedTT
