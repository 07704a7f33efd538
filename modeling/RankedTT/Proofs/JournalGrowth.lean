import RankedTT.Proofs.Returns
import RankedTT.Session.Basic

/-!
Runs only add to the journal. Whatever a computation of the typing rules, of the evaluator or of a
session does, and however it ends, the events from before are the oldest events after it. So what is
known of all events in the end is known of them at every moment.
-/

set_option autoImplicit false
set_option relaxedAutoImplicit false

namespace RankedTT

/-- States with a list of events, the latest first. -/
class Journaled (σ : Type) where
  events : σ → List Event

export Journaled (events)

instance : Journaled Journal := ⟨Journal.events⟩

instance {σ : Type} : Journaled (Progress σ) := ⟨fun progress ↦ progress.journal.events⟩

/-- The counter of the normalizer comes without events. -/
instance : Journaled Nat := ⟨fun _ ↦ []⟩

namespace Run

variable {σ ε ε' α β : Type} [Journaled σ]

/-- Whatever the outcome, the events before the computation are still there after it. -/
class Grows (a : Run σ ε α) : Prop where
  grows : ∀ s, events s <:+ events (a.start s).2

namespace Grows

instance pure {x : α} : (Pure.pure x : Run σ ε α).Grows := ⟨fun s ↦ List.suffix_refl (events s)⟩

instance fail {cause : ε} : (Run.fail cause : Run σ ε α).Grows :=
  ⟨fun s ↦ List.suffix_refl (events s)⟩

instance outOfFuel : (Run.outOfFuel : Run σ ε α).Grows := ⟨fun s ↦ List.suffix_refl (events s)⟩

instance ofOutcome {o : Outcome ε α} : (Run.ofOutcome o : Run σ ε α).Grows :=
  ⟨fun s ↦ List.suffix_refl (events s)⟩

instance ofOption {cause : ε} {o : Option α} : (Run.ofOption cause o : Run σ ε α).Grows := by
  cases o
  · exact fail
  · exact pure

instance ofExcept {f : ε' → ε} {e : Except ε' α} : (Run.ofExcept f e : Run σ ε α).Grows := by
  cases e
  · exact fail
  · exact pure

instance bind {a : Run σ ε α} {f : α → Run σ ε β} [ha : a.Grows] [hf : ∀ x, (f x).Grows] :
    (a >>= f).Grows where
  grows s := by
    have hfirst := ha.grows s
    rw [start_bind]
    generalize a.start s = r at hfirst
    obtain ⟨stop | x, s₁⟩ := r
    · exact hfirst
    · exact hfirst.trans ((hf x).grows s₁)

/-- For a second step that has to be taken apart by hand. -/
theorem andThen {a : Run σ ε α} {f : α → Run σ ε β} [a.Grows] (hf : ∀ x, (f x).Grows) :
    (a >>= f).Grows :=
  bind

instance mapError {f : ε → ε'} {a : Run σ ε α} [ha : a.Grows] : (Run.mapError f a).Grows :=
  ⟨fun s ↦ ha.grows s⟩

instance ite {c : Prop} [Decidable c] {a b : Run σ ε α} [ha : a.Grows] [hb : b.Grows] :
    (if c then a else b).Grows := by
  split
  · exact ha
  · exact hb

instance mapM {f : β → Run σ ε α} [hf : ∀ x, (f x).Grows] {xs : List β} : (xs.mapM f).Grows := by
  induction xs with
  | nil => exact pure
  | cons x xs ih =>
    rw [List.mapM_cons]
    infer_instance

end Grows
end Run

open Run

/-! ### Typing rules -/

section Rules

variable {σ κ α : Type} {fuel : Nat}

namespace Check

instance reject_grows {cause : TypeError} : (reject cause : Check σ κ α).Grows := Grows.fail

instance record_grows {event : Event} : (record event : Check σ κ Unit).Grows :=
  ⟨fun s ↦ List.suffix_cons event (events s)⟩

instance stamp_grows {t : Core} : (stamp t : Check σ κ Core).Grows :=
  ⟨fun s ↦ List.suffix_refl (events s)⟩

instance lambda_grows {param : String} {body : Core} : (lambda param body : Check σ κ Core).Grows :=
  stamp_grows

instance subst_grows {images : Substitution} {t : Core} : (subst images t : Check σ κ Core).Grows :=
  stamp_grows

instance ofNormalizer_grows {o : Outcome BadProjection α} : (ofNormalizer o : Check σ κ α).Grows :=
  Grows.mapError

instance normalize_grows {ctx : Ctx} {t : Core} : (normalize fuel ctx t : Check σ κ Core).Grows :=
  Grows.bind

instance normalized_grows {ctx : Ctx} {judgement : Classified Core} :
    (normalized fuel ctx judgement : Check σ κ (Classified Core)).Grows := Grows.bind

instance lookup_grows {ctx : Ctx} {name : String} :
    (lookup ctx name : Check σ κ (Classified Core)).Grows := Grows.ofExcept

instance ensureFresh_grows {ctx : Ctx} {name : String} :
    (ensureFresh ctx name : Check σ κ Unit).Grows := Grows.ite

instance convert_grows {env : NormEnv} {found expected : Classified Core} :
    (convert fuel env found expected : Check σ κ Unit).Grows := by
  refine .andThen fun _ ↦ .andThen fun cause? ↦ ?_
  cases cause? <;> infer_instance

end Check

/-- Whether a term is checked or its type is inferred, nothing is taken out of the journal. -/
class Judged.Grows (rule : Judged σ κ) : Prop where
  infer : ∀ {ctx : Ctx}, (rule.infer ctx).Grows
  check : ∀ {ctx : Ctx} {expected : Classified Core}, (rule.check ctx expected).Grows

attribute [instance] Judged.Grows.infer Judged.Grows.check

variable {rule operator argument function definition body type : Judged σ κ} {ctx : Ctx}
  {self : Term}

instance Judged.Grows.logged [rule.Grows] : rule.logged.Grows where
  infer := Run.Grows.bind
  check := Run.Grows.bind

instance Judged.ensure_grows [rule.Grows] {expected : Option (Classified Core)} :
    (rule.ensure ctx expected).Grows := by
  cases expected
  · exact Judged.Grows.infer
  · exact Run.Grows.bind

instance Judged.declare_grows [rule.Grows] {name : String} :
    (rule.declare fuel ctx name).Grows := Run.Grows.bind

instance checkByInference_grows {infer : Ctx → Check σ κ (Classified Core)}
    [∀ ctx, (infer ctx).Grows] {expected : Classified Core} :
    (checkByInference fuel infer ctx expected).Grows := Run.Grows.bind

instance checkTypeByInference_grows {infer : Ctx → Check σ κ (Classified Core)}
    [∀ ctx, (infer ctx).Grows] {expected : Classified Core} :
    (checkTypeByInference fuel self infer ctx expected).Grows := by
  refine .andThen fun _ ↦ .andThen fun _ ↦ .andThen fun _ ↦ ?_
  dsimp only
  split
  · split <;> infer_instance
  · infer_instance

section Functions

variable {param name : String}

instance elaborateLet_grows [definition.Grows] [body.Grows] {expected : Option (Classified Core)} :
    (elaborateLet fuel name definition body expected ctx).Grows := Run.Grows.bind

instance letRule_grows [definition.Grows] [body.Grows] :
    (letRule fuel self name definition body).Grows where
  infer := elaborateLet_grows
  check := Run.Grows.bind

/-- The annotation of the parameter counts if there is one. -/
theorem checkLambda_grows (type? : Option (Judged σ κ)) (htype : ∀ type ∈ type?, type.Grows)
    [body.Grows] {expected : Classified Core} :
    (checkLambda fuel self param type? body ctx expected).Grows := by
  refine .andThen fun _ ↦ ?_
  split
  · refine .andThen fun _ ↦ ?_
    cases type? with
    | none =>
      dsimp only
      infer_instance
    | some type =>
      have := htype type rfl
      dsimp only
      infer_instance
  · infer_instance
  · infer_instance

instance lambdaRule_grows [body.Grows] : (lambdaRule fuel self param body).Grows where
  infer := Check.reject_grows
  check := checkLambda_grows none nofun

instance typedLambdaRule_grows [htype : type.Grows] [body.Grows] :
    (typedLambdaRule fuel self param type body).Grows where
  infer {ctx} := by
    refine .andThen fun _ ↦ .andThen fun _ ↦ .andThen fun _ ↦ .andThen fun _ ↦ ?_
    dsimp only
    infer_instance
  check := checkLambda_grows (some type) fun _ h ↦ Option.some.inj h ▸ htype

instance inferApplication_grows [operator.Grows] [argument.Grows] :
    (inferApplication fuel self operator argument ctx).Grows := by
  refine .andThen fun _ ↦ .andThen fun _ ↦ ?_
  split <;> infer_instance

instance applicationRule_grows [operator.Grows] [argument.Grows] :
    (applicationRule fuel self operator argument).Grows where
  infer := inferApplication_grows
  check := checkByInference_grows

instance checkAppliedLambda_grows [function.Grows] [argument.Grows] {expected : Classified Core} :
    (checkAppliedLambda function argument ctx expected).Grows := Run.Grows.bind

instance appliedLambdaRule_grows [function.Grows] [body.Grows] [argument.Grows] :
    (appliedLambdaRule fuel self function param body argument).Grows where
  infer := elaborateLet_grows
  check := checkAppliedLambda_grows

instance appliedTypedLambdaRule_grows [function.Grows] [argument.Grows] :
    (appliedTypedLambdaRule fuel self function argument).Grows where
  infer := inferApplication_grows
  check := checkAppliedLambda_grows

end Functions

section Quantifiers

variable {polarity : Polarity} {cls : Judged σ κ}

instance quantifyOver_grows [body.Grows] {binder : Classified String} :
    (quantifyOver polarity binder body ctx).Grows := by
  refine .andThen fun _ ↦ ?_
  split <;> infer_instance

instance quantifyOverClass_grows [cls.Grows] [body.Grows] {name : String} :
    (quantifyOverClass fuel polarity name cls body ctx).Grows := by
  refine .andThen fun _ ↦ .andThen fun _ ↦ ?_
  split
  · split <;> infer_instance
  · infer_instance

instance quantifierRule_grows {infer : Ctx → Check σ κ (Classified Core)}
    [hinfer : ∀ ctx, (infer ctx).Grows] : (quantifierRule fuel self infer).Grows where
  infer := hinfer _
  check := by
    refine .andThen fun _ ↦ ?_
    split <;> infer_instance

instance inferUnbounded_grows [body.Grows] {name : Option String} :
    (inferUnbounded polarity name body ctx).Grows := Run.Grows.bind

instance inferTypeBound_grows [type.Grows] [body.Grows] {name : Option String} :
    (inferTypeBound fuel polarity name type body ctx).Grows := Run.Grows.bind

instance inferClassBound_grows [cls.Grows] [body.Grows] {name : Option String} :
    (inferClassBound fuel polarity name cls body ctx).Grows := by
  cases name <;> exact Run.Grows.bind

end Quantifiers

section Records

variable {fields : List (String × Judged σ κ)}

theorem inferTelescope_grows (h : ∀ field ∈ fields, field.2.Grows) (ctx : Ctx) :
    (inferTelescope fuel ctx fields).Grows := by
  induction fields generalizing ctx with
  | nil => exact Run.Grows.pure
  | cons field rest ih =>
    obtain ⟨hfield, hrest⟩ := List.forall_mem_cons.mp h
    have hrest := ih hrest
    exact Run.Grows.bind

theorem signatureRule_grows (h : ∀ field ∈ fields, field.2.Grows) :
    (signatureRule fuel self fields).Grows := by
  have hinfer (ctx : Ctx) : (inferSignature fuel fields ctx).Grows := by
    have htypes : (inferTelescope fuel ctx fields).Grows := inferTelescope_grows h ctx
    exact Run.Grows.bind
  exact ⟨hinfer _, checkTypeByInference_grows⟩

theorem inferMembers_grows (h : ∀ field ∈ fields, field.2.Grows) (ctx : Ctx)
    (earlier : Substitution) : (inferMembers fuel ctx earlier fields).Grows := by
  induction fields generalizing ctx earlier with
  | nil => exact Run.Grows.pure
  | cons field rest ih =>
    obtain ⟨hfield, hrest⟩ := List.forall_mem_cons.mp h
    have hrest := ih hrest
    exact Run.Grows.bind

theorem checkMembers_grows (h : ∀ field ∈ fields, field.2.Grows) (position : Nat) (ctx : Ctx)
    (earlier : Substitution) (types : Telescope) :
    (checkMembers fuel position ctx earlier fields types).Grows := by
  induction fields generalizing position ctx earlier types with
  | nil => exact Run.Grows.pure
  | cons field rest ih =>
    obtain ⟨name, body⟩ := field
    obtain ⟨hfield, hrest⟩ := List.forall_mem_cons.mp h
    have hrest := ih hrest
    cases types with
    | nil => exact Run.Grows.pure
    | cons =>
      have hbody : body.Grows := hfield
      rw [checkMembers]
      dsimp only
      split
      · exact .andThen fun _ ↦ inferInstance
      · infer_instance

theorem recordRule_grows (h : ∀ field ∈ fields, field.2.Grows) :
    (recordRule fuel self fields).Grows where
  infer {ctx} := by
    have hmembers : (inferMembers fuel ctx [] fields).Grows := inferMembers_grows h ctx []
    exact Run.Grows.bind
  check {ctx _} := by
    have hmembers : ∀ types, (checkMembers fuel 0 ctx [] fields types).Grows :=
      checkMembers_grows h 0 ctx []
    refine .andThen fun _ ↦ ?_
    split
    · dsimp only
      infer_instance
    · infer_instance

instance inferAccess_grows [operator.Grows] {name : String} :
    (inferAccess fuel operator name ctx).Grows := by
  refine .andThen fun _ ↦ .andThen fun _ ↦ ?_
  dsimp only
  split
  · split <;> infer_instance
  · infer_instance

end Records

section Leaves

instance inferredRule_grows {infer : Ctx → Check σ κ (Classified Core)}
    [hinfer : ∀ ctx, (infer ctx).Grows] : (inferredRule fuel self infer).Grows where
  infer := hinfer _
  check := checkByInference_grows

instance universeRule_grows {rank : Nat} :
    (universeRule fuel self rank : Judged σ κ).Grows where
  infer := Run.Grows.pure
  check := by
    refine .andThen fun _ ↦ ?_
    split <;> infer_instance

instance annotationRule_grows [type.Grows] [body.Grows] :
    (annotationRule fuel self type body).Grows where
  infer := Run.Grows.bind
  check := Run.Grows.bind

end Leaves

end Rules

section Terms

variable {σ κ : Type} {host : Host σ κ}

mutual

theorem Term.rule_grows [∀ filename, (host.resolve filename).Grows] :
    (t : Term) → (t.rule host).Grows
  | .univ _ => by
    unfold Term.rule
    infer_instance
  | .var _ => by
    unfold Term.rule variableRule
    infer_instance
  | .lam _ body => by
    have := body.rule_grows
    unfold Term.rule
    infer_instance
  | .typedLam _ type body => by
    have := type.rule_grows
    have := body.rule_grows
    unfold Term.rule
    infer_instance
  | .app operator argument => by
    have := operator.rule_grows
    have := argument.rule_grows
    cases operator with
    | lam _ body =>
      have := body.rule_grows
      unfold Term.rule
      infer_instance
    | _ =>
      unfold Term.rule
      infer_instance
  | .quant _ bound name body => by
    have := body.rule_grows
    have (polarity : Polarity) (ctx : Ctx) :=
      bound.inferQuantifier_grows polarity name (body.rule host).logged ctx
    unfold Term.rule
    infer_instance
  | .signature members => by
    unfold Term.rule
    exact signatureRule_grows members.judged_grows
  | .record members => by
    unfold Term.rule
    exact recordRule_grows members.judged_grows
  | .access operator _ => by
    have := operator.rule_grows
    unfold Term.rule accessRule
    exact ⟨inferAccess_grows, checkTypeByInference_grows⟩
  | .danglingAccess _ | .generic _ _ => by
    unfold Term.rule
    exact ⟨Check.reject_grows, Check.reject_grows⟩
  | .anno type term => by
    have := type.rule_grows
    have := term.rule_grows
    unfold Term.rule
    infer_instance
  | .letIn _ definition body => by
    have := definition.rule_grows
    have := body.rule_grows
    unfold Term.rule
    infer_instance
  | .const _ => by
    unfold Term.rule constantRule
    infer_instance
  | .typeOf term => by
    have := term.rule_grows
    unfold Term.rule typeOfRule
    infer_instance
  | .importing _ => by
    unfold Term.rule importRule
    infer_instance

theorem Bound.inferQuantifier_grows [∀ filename, (host.resolve filename).Grows]
    (polarity : Polarity) (name : Option String) (body : Judged σ κ) [body.Grows] (ctx : Ctx) :
    (bound : Bound) → (bound.inferQuantifier host polarity name body ctx).Grows
  | .unbounded => inferUnbounded_grows
  | .type type => by
    have := type.rule_grows
    exact inferTypeBound_grows
  | .typeClass cls => by
    have := cls.rule_grows
    exact inferClassBound_grows

theorem Fields.judged_grows [∀ filename, (host.resolve filename).Grows] :
    (fields : Fields) → ∀ field ∈ fields.judged host, field.2.Grows
  | .nil => nofun
  | .cons _ term rest => by
    have := term.rule_grows
    exact List.forall_mem_cons.mpr ⟨Judged.Grows.logged, rest.judged_grows⟩

end

attribute [instance] Term.rule_grows

end Terms

/-! ### Evaluation and sessions -/

section Evaluation

instance Journal.record_grows {event : Event} :
    (modify (Journal.record event) : Eval PUnit).Grows :=
  ⟨fun s ↦ List.suffix_cons event s.events⟩

instance HostFn.call_grows {function : HostFn} {argument : Value} :
    (function.call argument).Grows := by
  cases function with
  | binary op => exact ⟨fun s ↦ List.suffix_refl s.events⟩
  | _ => unfold HostFn.call; infer_instance

variable {eval : Env Value → Core → Eval Value} [heval : ∀ env t, (eval env t).Grows]

instance Value.applyWith_grows {function argument : Value} :
    (function.applyWith eval argument).Grows := by
  cases function <;> unfold Value.applyWith <;> infer_instance

omit heval in
instance Value.project_grows {record : Value} {index : Nat} : (record.project index).Grows := by
  cases record <;> unfold Value.project <;> infer_instance

instance Core.evalWith_grows {env : Env Value} {t : Core} : (t.evalWith eval env).Grows := by
  cases t <;> unfold Core.evalWith <;> infer_instance

instance Core.eval_grows (fuel : Nat) (env : Env Value) (t : Core) : (t.eval fuel env).Grows := by
  induction fuel generalizing env t with
  | zero => exact Run.Grows.outOfFuel
  | succ fuel ih =>
    rw [Core.eval_succ]
    infer_instance

instance evaluate_grows {fuel : Nat} {env : Env Value} {judgement : Classified Core} :
    (evaluate fuel env judgement).Grows := by
  unfold evaluate
  split
  · exact Core.eval_grows fuel env judgement.term
  · exact Run.Grows.fail

end Evaluation

namespace Load

instance changeModules_grows {f : Modules → Modules} : (changeModules f).Grows :=
  ⟨fun s ↦ List.suffix_refl (events s)⟩

instance modules_grows : modules.Grows := ⟨fun s ↦ List.suffix_refl (events s)⟩

instance record_grows {event : Event} : (record event).Grows :=
  ⟨fun s ↦ List.suffix_cons event (events s)⟩

instance ofEval_grows {α : Type} {action : Eval α} [h : action.Grows] : (ofEval action).Grows :=
  ⟨fun s ↦ h.grows s.journal⟩

end Load

namespace Session

instance run_grows {fuel : Nat} {session : Session} {load : String → Load (Classified Value)}
    [hload : ∀ name, (load name).Grows] {program : Term} :
    (run fuel session load program).Grows := by
  have hhost (filename : String) : ((Host.mk fuel load).resolve filename).Grows := hload filename
  have hrule : (program.rule ⟨fuel, load⟩).Grows := program.rule_grows
  have hcheck : (checkProgram ⟨fuel, load⟩ session.checkerEnv program).Grows := hrule.logged.infer
  unfold run
  infer_instance

theorem loadModule_grows (fuel : Nat) (session : Session) (depth : Nat) (name : String) :
    (loadModule fuel session depth name).Grows := by
  induction depth generalizing name with
  | zero => exact Run.Grows.outOfFuel
  | succ depth ih =>
    have hleaving {α : Type} (action : Load α) [h : action.Grows] :
        (loadModule.leaving action).Grows := ⟨fun s ↦ h.grows s⟩
    refine .andThen fun _ ↦ .andThen fun modules ↦ ?_
    dsimp only
    split
    · infer_instance
    · split
      · exact .andThen fun _ ↦ inferInstance
      · infer_instance

end Session

end RankedTT
