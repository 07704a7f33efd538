import RankedTT.Proofs.Returns
import RankedTT.Typing.Judge
import Mathlib.Data.List.Forall2

/-!
The typing rules look at their host through requests only. In two hosts with the same fuel, the
elaborations of a program take the same steps, one by one: they give the same stamps, leave the same
messages and stop for the same reasons, and where one requests an import from its host, the other
requests the same import from its own. None of the messages is that a module is being loaded.
-/

set_option autoImplicit false
set_option relaxedAutoImplicit false

namespace RankedTT

open Run

/-- The module that is about to be read from the source. -/
def Event.reads? : Event → Option String
  | loading name => some name
  | _ => none

section Rules

variable {σ σ' κ κ' : Type} {fuel : Nat} {host : Host σ κ} {host' : Host σ' κ'}

/-! ### The steps of the rules -/

namespace Check

/-- Computations that take the same steps, each in a host of its own. -/
class inductive SameSteps (host : Host σ κ) (host' : Host σ' κ') :
    {α : Type} → Check σ κ α → Check σ' κ' α → Prop
  | pure {α : Type} (x : α) : SameSteps host host' (Pure.pure x) (Pure.pure x)
  | stop {α : Type} (reason : Stop TypeError) :
      SameSteps host host' (Run.ofOutcome (.error (reason.map .rejected)) : Check σ κ α)
        (Run.ofOutcome (.error (reason.map .rejected)))
  | stamp (t : Core) : SameSteps host host' (Check.stamp t) (Check.stamp t)
  | record {event : Event} (h : event.reads? = none) :
      SameSteps host host' (Check.record event) (Check.record event)
  | request (filename : String) :
      SameSteps host host' (Run.mapError (.importFailed filename) (host.resolve filename))
        (Run.mapError (.importFailed filename) (host'.resolve filename))
  | bind {α β : Type} {a : Check σ κ α} {a' : Check σ' κ' α} {f : α → Check σ κ β}
      {f' : α → Check σ' κ' β} (first : SameSteps host host' a a')
      (rest : ∀ x, SameSteps host host' (f x) (f' x)) : SameSteps host host' (a >>= f) (a' >>= f')

namespace SameSteps

variable {α β : Type}

attribute [instance] pure stamp request

instance andThen {a : Check σ κ α} {a' : Check σ' κ' α} {f : α → Check σ κ β}
    {f' : α → Check σ' κ' β} [first : SameSteps host host' a a']
    [rest : ∀ x, SameSteps host host' (f x) (f' x)] :
    SameSteps host host' (a >>= f) (a' >>= f') :=
  first.bind rest

/-- For a second step that has to be taken apart by hand. -/
theorem follow {a : Check σ κ α} {a' : Check σ' κ' α} {f : α → Check σ κ β}
    {f' : α → Check σ' κ' β} [first : SameSteps host host' a a']
    (rest : ∀ x, SameSteps host host' (f x) (f' x)) :
    SameSteps host host' (a >>= f) (a' >>= f') :=
  first.bind rest

instance ite {c : Prop} [Decidable c] {a b : Check σ κ α} {a' b' : Check σ' κ' α}
    [ha : SameSteps host host' a a'] [hb : SameSteps host host' b b'] :
    SameSteps host host' (if c then a else b) (if c then a' else b') := by
  split
  · exact ha
  · exact hb

instance reject {cause : TypeError} :
    SameSteps host host' (Check.reject cause : Check σ κ α) (Check.reject cause) :=
  stop (.error cause)

instance ofOption {cause : TypeError} {o : Option α} :
    SameSteps host host' (Run.ofOption (.rejected cause) o : Check σ κ α)
      (Run.ofOption (.rejected cause) o) := by
  cases o
  · exact reject
  · exact pure _

instance lookup {ctx : Ctx} {name : String} :
    SameSteps host host' (Check.lookup ctx name) (Check.lookup ctx name) := by
  unfold Check.lookup
  cases ctx.vars.lookup name
  · exact reject
  · exact pure _

instance ensureFresh {ctx : Ctx} {name : String} :
    SameSteps host host' (Check.ensureFresh ctx name) (Check.ensureFresh ctx name) :=
  ite

instance lambda {param : String} {body : Core} :
    SameSteps host host' (Check.lambda param body) (Check.lambda param body) :=
  stamp _

instance subst {images : Substitution} {t : Core} :
    SameSteps host host' (Check.subst images t) (Check.subst images t) :=
  stamp _

instance ofNormalizer {o : Outcome BadProjection α} :
    SameSteps host host' (Check.ofNormalizer o) (Check.ofNormalizer o) := by
  rcases o with ⟨⟨cause⟩ | _⟩ | x
  · exact stop (.error (.badProjection cause))
  · exact stop .outOfFuel
  · exact pure x

instance normalize {ctx : Ctx} {t : Core} :
    SameSteps host host' (Check.normalize fuel ctx t) (Check.normalize fuel ctx t) :=
  andThen

instance normalized {ctx : Ctx} {judgement : Classified Core} :
    SameSteps host host' (Check.normalized fuel ctx judgement)
      (Check.normalized fuel ctx judgement) :=
  andThen

instance convert {env : NormEnv} {found expected : Classified Core} :
    SameSteps host host' (Check.convert fuel env found expected)
      (Check.convert fuel env found expected) := by
  have hcomparing : SameSteps host host' (Check.record (.comparing env found expected))
      (Check.record (.comparing env found expected)) := record rfl
  refine .follow fun _ ↦ .follow fun cause? ↦ ?_
  cases cause? <;> infer_instance

/-- If the hosts agree in the states with a property, and keep it, then so do the computations. -/
theorem start_eq {I : σ → Prop} {host host' : Host σ κ}
    (hresolve : ∀ filename s, I s.host →
      (host.resolve filename).start s = (host'.resolve filename).start s ∧
        I ((host.resolve filename).start s).2.host)
    {a b : Check σ κ α} (h : SameSteps host host' a b) (s : Progress σ) (hs : I s.host) :
    a.start s = b.start s ∧ I (a.start s).2.host := by
  induction h generalizing s with
  | pure | stop | stamp | record => exact ⟨rfl, hs⟩
  | request filename =>
    obtain ⟨heq, hend⟩ := hresolve filename s hs
    rw [start_mapError, start_mapError, heq]
    exact ⟨rfl, heq ▸ hend⟩
  | @bind _ _ a a' f f' _ _ ihfirst ihrest =>
    obtain ⟨heq, hend⟩ := ihfirst s hs
    rw [start_bind, start_bind, ← heq]
    generalize a.start s = r at hend
    obtain ⟨stop | x, s₁⟩ := r
    · exact ⟨rfl, hend⟩
    · exact ihrest x s₁ hend

end SameSteps
end Check

open Check

/-- Rules that take the same steps, whether a term is checked or its type is inferred. -/
class Judged.SameSteps (host : Host σ κ) (host' : Host σ' κ') (rule : Judged σ κ)
    (rule' : Judged σ' κ') : Prop where
  term : rule.term = rule'.term
  infer : ∀ {ctx : Ctx}, Check.SameSteps host host' (rule.infer ctx) (rule'.infer ctx)
  check : ∀ {ctx : Ctx} {expected : Classified Core},
    Check.SameSteps host host' (rule.check ctx expected) (rule'.check ctx expected)

attribute [instance] Judged.SameSteps.infer Judged.SameSteps.check

variable {rule operator argument function definition body type cls : Judged σ κ}
  {rule' operator' argument' function' definition' body' type' cls' : Judged σ' κ'} {ctx : Ctx}
  {self : Term}

instance Judged.SameSteps.logged [h : rule.SameSteps host host' rule'] :
    rule.logged.SameSteps host host' rule'.logged where
  term := h.term
  infer {ctx} := by
    refine .follow fun judgement ↦ ?_
    rw [h.term]
    have hinferred : Check.SameSteps host host'
        (record (.inferred ctx rule'.term judgement.type))
        (record (.inferred ctx rule'.term judgement.type)) := .record rfl
    infer_instance
  check {ctx expected} := by
    have hchecking : Check.SameSteps host host'
        (record (.checking ctx rule'.term expected.term))
        (record (.checking ctx rule'.term expected.term)) := .record rfl
    unfold Judged.logged
    dsimp only
    rw [h.term]
    infer_instance

instance Judged.SameSteps.ensure [rule.SameSteps host host' rule']
    {expected : Option (Classified Core)} :
    Check.SameSteps host host' (rule.ensure ctx expected) (rule'.ensure ctx expected) := by
  cases expected
  · exact Judged.SameSteps.infer
  · exact .andThen

instance Judged.SameSteps.declare [h : rule.SameSteps host host' rule'] {name : String} :
    Check.SameSteps host host' (rule.declare fuel ctx name) (rule'.declare fuel ctx name) := by
  refine .follow fun _ ↦ .follow fun _ ↦ ?_
  rw [h.term]
  infer_instance

section Inference

variable {infer : Ctx → Check σ κ (Classified Core)} {infer' : Ctx → Check σ' κ' (Classified Core)}
  {expected : Classified Core}

instance checkByInference_sameSteps
    [∀ ctx, Check.SameSteps host host' (infer ctx) (infer' ctx)] :
    Check.SameSteps host host' (checkByInference fuel infer ctx expected)
      (checkByInference fuel infer' ctx expected) :=
  .andThen

instance checkTypeByInference_sameSteps
    [∀ ctx, Check.SameSteps host host' (infer ctx) (infer' ctx)] :
    Check.SameSteps host host' (checkTypeByInference fuel self infer ctx expected)
      (checkTypeByInference fuel self infer' ctx expected) := by
  refine .follow fun _ ↦ .follow fun m ↦ .follow fun n ↦ ?_
  dsimp only
  split
  · infer_instance
  · infer_instance

end Inference

/-! ### Functions -/

section Functions

variable {param name : String}

instance elaborateLet_sameSteps [definition.SameSteps host host' definition']
    [body.SameSteps host host' body'] {expected : Option (Classified Core)} :
    Check.SameSteps host host' (elaborateLet fuel name definition body expected ctx)
      (elaborateLet fuel name definition' body' expected ctx) :=
  .andThen

instance letRule_sameSteps [definition.SameSteps host host' definition']
    [body.SameSteps host host' body'] :
    (letRule fuel self name definition body).SameSteps host host'
      (letRule fuel self name definition' body') where
  term := rfl
  infer := elaborateLet_sameSteps
  check := .andThen

/-- The annotation of the parameter counts if there is one. -/
theorem checkLambda_sameSteps {type? : Option (Judged σ κ)} {type?' : Option (Judged σ' κ')}
    (htype : Option.Rel (Judged.SameSteps host host') type? type?')
    [body.SameSteps host host' body'] {expected : Classified Core} :
    Check.SameSteps host host' (checkLambda fuel self param type? body ctx expected)
      (checkLambda fuel self param type?' body' ctx expected) := by
  refine .follow fun _ ↦ ?_
  split
  · refine .follow fun _ ↦ ?_
    cases htype with
    | none =>
      dsimp only
      infer_instance
    | some htype =>
      dsimp only
      infer_instance
  · infer_instance
  · infer_instance

instance lambdaRule_sameSteps [body.SameSteps host host' body'] :
    (lambdaRule fuel self param body).SameSteps host host'
      (lambdaRule fuel self param body') where
  term := rfl
  infer := .reject
  check := checkLambda_sameSteps .none

instance typedLambdaRule_sameSteps [htype : type.SameSteps host host' type']
    [body.SameSteps host host' body'] :
    (typedLambdaRule fuel self param type body).SameSteps host host'
      (typedLambdaRule fuel self param type' body') where
  term := rfl
  infer {ctx} := by
    refine .follow fun _ ↦ .follow fun _ ↦ .follow fun _ ↦ .follow fun _ ↦ ?_
    dsimp only
    infer_instance
  check := checkLambda_sameSteps (.some htype)

instance inferApplication_sameSteps [h : operator.SameSteps host host' operator']
    [argument.SameSteps host host' argument'] :
    Check.SameSteps host host' (inferApplication fuel self operator argument ctx)
      (inferApplication fuel self operator' argument' ctx) := by
  refine .follow fun _ ↦ .follow fun _ ↦ ?_
  rw [h.term]
  split <;> infer_instance

instance applicationRule_sameSteps [operator.SameSteps host host' operator']
    [argument.SameSteps host host' argument'] :
    (applicationRule fuel self operator argument).SameSteps host host'
      (applicationRule fuel self operator' argument') where
  term := rfl
  infer := inferApplication_sameSteps
  check := checkByInference_sameSteps

instance checkAppliedLambda_sameSteps [function.SameSteps host host' function']
    [argument.SameSteps host host' argument'] {expected : Classified Core} :
    Check.SameSteps host host' (checkAppliedLambda function argument ctx expected)
      (checkAppliedLambda function' argument' ctx expected) :=
  .andThen

instance appliedLambdaRule_sameSteps [function.SameSteps host host' function']
    [body.SameSteps host host' body'] [argument.SameSteps host host' argument'] :
    (appliedLambdaRule fuel self function param body argument).SameSteps host host'
      (appliedLambdaRule fuel self function' param body' argument') where
  term := rfl
  infer := elaborateLet_sameSteps
  check := checkAppliedLambda_sameSteps

instance appliedTypedLambdaRule_sameSteps [function.SameSteps host host' function']
    [argument.SameSteps host host' argument'] :
    (appliedTypedLambdaRule fuel self function argument).SameSteps host host'
      (appliedTypedLambdaRule fuel self function' argument') where
  term := rfl
  infer := inferApplication_sameSteps
  check := checkAppliedLambda_sameSteps

end Functions

/-! ### Quantifiers -/

section Quantifiers

variable {polarity : Polarity}

instance quantifyOver_sameSteps [h : body.SameSteps host host' body']
    {binder : Classified String} :
    Check.SameSteps host host' (quantifyOver polarity binder body ctx)
      (quantifyOver polarity binder body' ctx) := by
  refine .follow fun _ ↦ ?_
  rw [h.term]
  split <;> infer_instance

instance quantifyOverClass_sameSteps [cls.SameSteps host host' cls']
    [body.SameSteps host host' body'] {name : String} :
    Check.SameSteps host host' (quantifyOverClass fuel polarity name cls body ctx)
      (quantifyOverClass fuel polarity name cls' body' ctx) := by
  refine .follow fun _ ↦ .follow fun _ ↦ ?_
  split
  · split <;> infer_instance
  · infer_instance

instance quantifierRule_sameSteps {infer : Ctx → Check σ κ (Classified Core)}
    {infer' : Ctx → Check σ' κ' (Classified Core)}
    [hinfer : ∀ ctx, Check.SameSteps host host' (infer ctx) (infer' ctx)] :
    (quantifierRule fuel self infer).SameSteps host host' (quantifierRule fuel self infer') where
  term := rfl
  infer := hinfer _
  check := by
    refine .follow fun _ ↦ ?_
    split <;> infer_instance

variable {name : Option String}

instance inferUnbounded_sameSteps [body.SameSteps host host' body'] :
    Check.SameSteps host host' (inferUnbounded polarity name body ctx)
      (inferUnbounded polarity name body' ctx) :=
  .andThen

instance inferTypeBound_sameSteps [type.SameSteps host host' type']
    [body.SameSteps host host' body'] :
    Check.SameSteps host host' (inferTypeBound fuel polarity name type body ctx)
      (inferTypeBound fuel polarity name type' body' ctx) :=
  .andThen

instance inferClassBound_sameSteps [cls.SameSteps host host' cls']
    [body.SameSteps host host' body'] :
    Check.SameSteps host host' (inferClassBound fuel polarity name cls body ctx)
      (inferClassBound fuel polarity name cls' body' ctx) := by
  cases name <;> exact .andThen

end Quantifiers

/-! ### Records -/

section Records

/-- Fields of the same names, whose rules take the same steps. -/
abbrev FieldsSameSteps (host : Host σ κ) (host' : Host σ' κ') :
    List (String × Judged σ κ) → List (String × Judged σ' κ') → Prop :=
  List.Forall₂ fun field field' ↦
    field.1 = field'.1 ∧ field.2.SameSteps host host' field'.2

variable {fields : List (String × Judged σ κ)} {fields' : List (String × Judged σ' κ')}

theorem inferTelescope_sameSteps (h : FieldsSameSteps host host' fields fields') (ctx : Ctx) :
    Check.SameSteps host host' (inferTelescope fuel ctx fields)
      (inferTelescope fuel ctx fields') := by
  induction h generalizing ctx with
  | nil => exact .pure _
  | @cons field field' _ _ hfield _ ih =>
    obtain ⟨name, type⟩ := field
    obtain ⟨_, type'⟩ := field'
    obtain ⟨rfl, hfield⟩ := hfield
    exact .andThen

theorem signatureRule_sameSteps (h : FieldsSameSteps host host' fields fields') :
    (signatureRule fuel self fields).SameSteps host host'
      (signatureRule fuel self fields') := by
  have hinfer (ctx : Ctx) : Check.SameSteps host host' (inferSignature fuel fields ctx)
      (inferSignature fuel fields' ctx) := by
    have htypes : Check.SameSteps host host' (inferTelescope fuel ctx fields)
        (inferTelescope fuel ctx fields') := inferTelescope_sameSteps h ctx
    exact .andThen
  exact ⟨rfl, hinfer _, checkTypeByInference_sameSteps⟩

theorem inferMembers_sameSteps (h : FieldsSameSteps host host' fields fields') (ctx : Ctx)
    (earlier : Substitution) :
    Check.SameSteps host host' (inferMembers fuel ctx earlier fields)
      (inferMembers fuel ctx earlier fields') := by
  induction h generalizing ctx earlier with
  | nil => exact .pure _
  | @cons field field' _ _ hfield _ ih =>
    obtain ⟨name, body⟩ := field
    obtain ⟨_, body'⟩ := field'
    obtain ⟨rfl, hfield⟩ := hfield
    exact .andThen

theorem checkMembers_sameSteps (h : FieldsSameSteps host host' fields fields') (position : Nat)
    (ctx : Ctx) (earlier : Substitution) (types : Telescope) :
    Check.SameSteps host host' (checkMembers fuel position ctx earlier fields types)
      (checkMembers fuel position ctx earlier fields' types) := by
  induction h generalizing position ctx earlier types with
  | nil => exact .pure _
  | @cons field field' _ _ hfield _ ih =>
    obtain ⟨name, body⟩ := field
    obtain ⟨_, body'⟩ := field'
    obtain ⟨rfl, hbody⟩ := hfield
    cases types with
    | nil => exact .pure _
    | cons =>
      rw [checkMembers, checkMembers]
      dsimp only
      split
      · exact .follow fun _ ↦ inferInstance
      · infer_instance

theorem recordRule_sameSteps (h : FieldsSameSteps host host' fields fields') :
    (recordRule fuel self fields).SameSteps host host' (recordRule fuel self fields') where
  term := rfl
  infer {ctx} := by
    have hmembers : Check.SameSteps host host' (inferMembers fuel ctx [] fields)
        (inferMembers fuel ctx [] fields') := inferMembers_sameSteps h ctx []
    exact .andThen
  check {ctx _} := by
    have hmembers (types : Telescope) :
        Check.SameSteps host host' (checkMembers fuel 0 ctx [] fields types)
          (checkMembers fuel 0 ctx [] fields' types) := checkMembers_sameSteps h 0 ctx [] types
    refine .follow fun _ ↦ ?_
    rw [h.length_eq]
    split
    · dsimp only
      infer_instance
    · infer_instance

instance inferAccess_sameSteps [h : operator.SameSteps host host' operator'] {name : String} :
    Check.SameSteps host host' (inferAccess fuel operator name ctx)
      (inferAccess fuel operator' name ctx) := by
  refine .follow fun _ ↦ .follow fun _ ↦ ?_
  rw [h.term]
  dsimp only
  split
  · split <;> infer_instance
  · infer_instance

end Records

/-! ### Other terms -/

section Leaves

instance inferredRule_sameSteps {infer : Ctx → Check σ κ (Classified Core)}
    {infer' : Ctx → Check σ' κ' (Classified Core)}
    [hinfer : ∀ ctx, Check.SameSteps host host' (infer ctx) (infer' ctx)] :
    (inferredRule fuel self infer).SameSteps host host' (inferredRule fuel self infer') where
  term := rfl
  infer := hinfer _
  check := checkByInference_sameSteps

instance universeRule_sameSteps {rank : Nat} :
    (universeRule fuel self rank).SameSteps host host' (universeRule fuel self rank) where
  term := rfl
  infer := .pure _
  check := by
    refine .follow fun _ ↦ ?_
    split <;> infer_instance

instance annotationRule_sameSteps [type.SameSteps host host' type']
    [body.SameSteps host host' body'] :
    (annotationRule fuel self type body).SameSteps host host'
      (annotationRule fuel self type' body') where
  term := rfl
  infer := .andThen
  check := .andThen

end Leaves

end Rules

/-! ### Terms -/

section Terms

variable {σ σ' κ κ' : Type} {host : Host σ κ} {host' : Host σ' κ'}

mutual

theorem Term.rule_sameSteps (hfuel : host.fuel = host'.fuel) :
    (t : Term) → (t.rule host).SameSteps host host' (t.rule host')
  | .univ _ => by
    unfold Term.rule
    rw [hfuel]
    infer_instance
  | .var _ => by
    unfold Term.rule variableRule
    rw [hfuel]
    infer_instance
  | .lam _ body => by
    have := body.rule_sameSteps hfuel
    unfold Term.rule
    rw [hfuel]
    infer_instance
  | .typedLam _ type body => by
    have := type.rule_sameSteps hfuel
    have := body.rule_sameSteps hfuel
    unfold Term.rule
    rw [hfuel]
    infer_instance
  | .app operator argument => by
    have := operator.rule_sameSteps hfuel
    have := argument.rule_sameSteps hfuel
    cases operator with
    | lam _ body =>
      have := body.rule_sameSteps hfuel
      unfold Term.rule
      rw [hfuel]
      infer_instance
    | _ =>
      unfold Term.rule
      rw [hfuel]
      infer_instance
  | .quant _ bound name body => by
    have := body.rule_sameSteps hfuel
    have (polarity : Polarity) (ctx : Ctx) :=
      bound.inferQuantifier_sameSteps hfuel polarity name (body.rule host).logged
        (body.rule host').logged ctx
    unfold Term.rule
    rw [hfuel]
    infer_instance
  | .signature members => by
    unfold Term.rule
    rw [hfuel]
    exact signatureRule_sameSteps (members.judged_sameSteps hfuel)
  | .record members => by
    unfold Term.rule
    rw [hfuel]
    exact recordRule_sameSteps (members.judged_sameSteps hfuel)
  | .access operator _ => by
    have := operator.rule_sameSteps hfuel
    unfold Term.rule accessRule
    rw [hfuel]
    exact ⟨rfl, inferAccess_sameSteps, checkTypeByInference_sameSteps⟩
  | .danglingAccess _ | .generic _ _ => by
    unfold Term.rule
    exact ⟨rfl, .reject, .reject⟩
  | .anno type term => by
    have := type.rule_sameSteps hfuel
    have := term.rule_sameSteps hfuel
    unfold Term.rule
    rw [hfuel]
    infer_instance
  | .letIn _ definition body => by
    have := definition.rule_sameSteps hfuel
    have := body.rule_sameSteps hfuel
    unfold Term.rule
    rw [hfuel]
    infer_instance
  | .const _ => by
    unfold Term.rule constantRule
    rw [hfuel]
    infer_instance
  | .typeOf term => by
    have := term.rule_sameSteps hfuel
    unfold Term.rule typeOfRule
    rw [hfuel]
    infer_instance
  | .importing _ => by
    unfold Term.rule importRule
    rw [hfuel]
    infer_instance

theorem Bound.inferQuantifier_sameSteps (hfuel : host.fuel = host'.fuel) (polarity : Polarity)
    (name : Option String) (body : Judged σ κ) (body' : Judged σ' κ')
    [body.SameSteps host host' body'] (ctx : Ctx) :
    (bound : Bound) → Check.SameSteps host host'
      (bound.inferQuantifier host polarity name body ctx)
      (bound.inferQuantifier host' polarity name body' ctx)
  | .unbounded => inferUnbounded_sameSteps
  | .type type => by
    have := type.rule_sameSteps hfuel
    unfold Bound.inferQuantifier
    rw [hfuel]
    exact inferTypeBound_sameSteps
  | .typeClass cls => by
    have := cls.rule_sameSteps hfuel
    unfold Bound.inferQuantifier
    rw [hfuel]
    exact inferClassBound_sameSteps

theorem Fields.judged_sameSteps (hfuel : host.fuel = host'.fuel) :
    (fields : Fields) → FieldsSameSteps host host' (fields.judged host) (fields.judged host')
  | .nil => .nil
  | .cons _ term rest => by
    have := term.rule_sameSteps hfuel
    exact .cons ⟨rfl, Judged.SameSteps.logged⟩ (rest.judged_sameSteps hfuel)

end

/-- Hosts with the same fuel elaborate a program in the same steps. -/
theorem checkProgram_sameSteps (hfuel : host.fuel = host'.fuel) (env : Env (Classified Core))
    (program : Term) :
    Check.SameSteps host host' (checkProgram host env program)
      (checkProgram host' env program) :=
  have hrule := program.rule_sameSteps hfuel
  hrule.logged.infer

end Terms

end RankedTT
