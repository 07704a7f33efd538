import RankedTT.Proofs.Derivation
import RankedTT.Proofs.OperatorRules

/-!
Programs over the prelude. Such a program has literals for its only constants, and binds no name of
an operation. It is elaborated in lockstep with the program that has the operations in place of
their names, unless it uses the symbol for multiplication below a binder that takes this symbol for
its name, or lets such a binder capture it.
-/

set_option autoImplicit false
set_option relaxedAutoImplicit false

namespace RankedTT

open Prelude (operator?)
open RankedTT.Core (Clean Found Elaborates)
open Run

/-! ### Programs -/

mutual

/-- All constants are literals, and no name of an operation is bound. -/
def Term.OverPrelude : Term → Prop
  | .univ _ | .var _ | .danglingAccess _ | .importing _ => True
  | .lam param body => operator? param = none ∧ body.OverPrelude
  | .typedLam param type body => operator? param = none ∧ type.OverPrelude ∧ body.OverPrelude
  | .app operator argument => operator.OverPrelude ∧ argument.OverPrelude
  | .quant _ bound name body =>
    (∀ x ∈ name, operator? x = none) ∧ bound.OverPrelude ∧ body.OverPrelude
  | .signature members | .record members => members.OverPrelude
  | .access term _ | .typeOf term => term.OverPrelude
  | .generic name bound => operator? name = none ∧ bound.OverPrelude
  | .anno type term => type.OverPrelude ∧ term.OverPrelude
  | .letIn name definition body =>
    operator? name = none ∧ definition.OverPrelude ∧ body.OverPrelude
  | .const content => content.IsLiteral

def Bound.OverPrelude : Bound → Prop
  | .unbounded => True
  | .type type => type.OverPrelude
  | .typeClass cls => cls.OverPrelude

def Fields.OverPrelude : Fields → Prop
  | .nil => True
  | .cons name term rest => operator? name = none ∧ term.OverPrelude ∧ rest.OverPrelude

end

/-- Whether a quantifier has no anonymous binder: its name is given, and there is no evidence. -/
def Bound.keepsAnonymous (name : Option String) : Bound → Bool
  | .typeClass _ => false
  | _ => name.isSome

mutual

/-- Where the symbol that is the name of anonymous binders is live, it may be used, but not below
such a binder. -/
def Term.Unshadowed (live : Bool) : Term → Prop
  | .univ _ | .danglingAccess _ | .importing _ | .const _ => True
  | .var name => name = anonymous → live = true
  | .lam _ body => body.Unshadowed live
  | .typedLam _ type body => type.Unshadowed live ∧ body.Unshadowed live
  | .app operator argument => operator.Unshadowed live ∧ argument.Unshadowed live
  | .quant _ bound name body =>
    bound.Unshadowed live ∧ body.Unshadowed (bound.keepsAnonymous name && live)
  | .signature members | .record members => members.Unshadowed live
  | .access term _ | .typeOf term => term.Unshadowed live
  | .generic _ bound => bound.Unshadowed live
  | .anno type term => type.Unshadowed live ∧ term.Unshadowed live
  | .letIn _ definition body => definition.Unshadowed live ∧ body.Unshadowed live

def Bound.Unshadowed (live : Bool) : Bound → Prop
  | .unbounded => True
  | .type type => type.Unshadowed live
  | .typeClass cls => cls.Unshadowed live

def Fields.Unshadowed (live : Bool) : Fields → Prop
  | .nil => True
  | .cons _ term rest => term.Unshadowed live ∧ rest.Unshadowed live

end

mutual

/-- Other terms in place of the variables. -/
def Term.replaceVariables (f : String → Term) : Term → Term
  | .univ rank => .univ rank
  | .var name => f name
  | .lam param body => .lam param (body.replaceVariables f)
  | .typedLam param type body =>
    .typedLam param (type.replaceVariables f) (body.replaceVariables f)
  | .app operator argument => .app (operator.replaceVariables f) (argument.replaceVariables f)
  | .quant polarity bound name body =>
    .quant polarity (bound.replaceVariables f) name (body.replaceVariables f)
  | .signature members => .signature (members.replaceVariables f)
  | .record members => .record (members.replaceVariables f)
  | .access term name => .access (term.replaceVariables f) name
  | .danglingAccess name => .danglingAccess name
  | .generic name bound => .generic name (bound.replaceVariables f)
  | .anno type term => .anno (type.replaceVariables f) (term.replaceVariables f)
  | .letIn name definition body =>
    .letIn name (definition.replaceVariables f) (body.replaceVariables f)
  | .const content => .const content
  | .typeOf term => .typeOf (term.replaceVariables f)
  | .importing filename => .importing filename

def Bound.replaceVariables (f : String → Term) : Bound → Bound
  | .unbounded => .unbounded
  | .type type => .type (type.replaceVariables f)
  | .typeClass cls => .typeClass (cls.replaceVariables f)

def Fields.replaceVariables (f : String → Term) : Fields → Fields
  | .nil => .nil
  | .cons name term rest => .cons name (term.replaceVariables f) (rest.replaceVariables f)

end

mutual

theorem Term.replaceVariables_replaceVariables (f g : String → Term) :
    (t : Term) → (t.replaceVariables f).replaceVariables g =
      t.replaceVariables fun x ↦ (f x).replaceVariables g
  | .univ _ | .var _ | .danglingAccess _ | .const _ | .importing _ => rfl
  | .lam _ body | .access body _ | .typeOf body => by
    simp only [Term.replaceVariables, body.replaceVariables_replaceVariables f g]
  | .typedLam _ first second | .app first second | .anno first second | .letIn _ first second => by
    simp only [Term.replaceVariables, first.replaceVariables_replaceVariables f g,
      second.replaceVariables_replaceVariables f g]
  | .quant _ bound _ body => by
    simp only [Term.replaceVariables, bound.replaceVariables_replaceVariables f g,
      body.replaceVariables_replaceVariables f g]
  | .signature members | .record members => by
    simp only [Term.replaceVariables, members.replaceVariables_replaceVariables f g]
  | .generic _ bound => by
    simp only [Term.replaceVariables, bound.replaceVariables_replaceVariables f g]

theorem Bound.replaceVariables_replaceVariables (f g : String → Term) :
    (bound : Bound) → (bound.replaceVariables f).replaceVariables g =
      bound.replaceVariables fun x ↦ (f x).replaceVariables g
  | .unbounded => rfl
  | .type t | .typeClass t => by
    simp only [Bound.replaceVariables, t.replaceVariables_replaceVariables f g]

theorem Fields.replaceVariables_replaceVariables (f g : String → Term) :
    (fields : Fields) → (fields.replaceVariables f).replaceVariables g =
      fields.replaceVariables fun x ↦ (f x).replaceVariables g
  | .nil => rfl
  | .cons _ term rest => by
    simp only [Fields.replaceVariables, term.replaceVariables_replaceVariables f g,
      rest.replaceVariables_replaceVariables f g]

end

section ReplaceVariables

variable {f : String → Term}

mutual

theorem Term.overPrelude_replaceVariables (hf : ∀ x, (f x).OverPrelude) :
    (t : Term) → t.OverPrelude → (t.replaceVariables f).OverPrelude
  | .univ _, _ | .danglingAccess _, _ | .importing _, _ => trivial
  | .var name, _ => hf name
  | .lam _ body, h => ⟨h.1, body.overPrelude_replaceVariables hf h.2⟩
  | .typedLam _ type body, h =>
    ⟨h.1, type.overPrelude_replaceVariables hf h.2.1, body.overPrelude_replaceVariables hf h.2.2⟩
  | .app operator argument, h =>
    ⟨operator.overPrelude_replaceVariables hf h.1, argument.overPrelude_replaceVariables hf h.2⟩
  | .quant _ bound _ body, h =>
    ⟨h.1, bound.overPrelude_replaceVariables hf h.2.1,
      body.overPrelude_replaceVariables hf h.2.2⟩
  | .signature members, h => members.overPrelude_replaceVariables hf h
  | .record members, h => members.overPrelude_replaceVariables hf h
  | .access term _, h => term.overPrelude_replaceVariables hf h
  | .typeOf term, h => term.overPrelude_replaceVariables hf h
  | .generic _ bound, h => ⟨h.1, bound.overPrelude_replaceVariables hf h.2⟩
  | .anno type term, h =>
    ⟨type.overPrelude_replaceVariables hf h.1, term.overPrelude_replaceVariables hf h.2⟩
  | .letIn _ definition body, h =>
    ⟨h.1, definition.overPrelude_replaceVariables hf h.2.1,
      body.overPrelude_replaceVariables hf h.2.2⟩
  | .const _, h => h

theorem Bound.overPrelude_replaceVariables (hf : ∀ x, (f x).OverPrelude) :
    (bound : Bound) → bound.OverPrelude → (bound.replaceVariables f).OverPrelude
  | .unbounded, _ => trivial
  | .type type, h => type.overPrelude_replaceVariables hf h
  | .typeClass cls, h => cls.overPrelude_replaceVariables hf h

theorem Fields.overPrelude_replaceVariables (hf : ∀ x, (f x).OverPrelude) :
    (fields : Fields) → fields.OverPrelude → (fields.replaceVariables f).OverPrelude
  | .nil, _ => trivial
  | .cons _ term rest, h =>
    ⟨h.1, term.overPrelude_replaceVariables hf h.2.1,
      rest.overPrelude_replaceVariables hf h.2.2⟩

end

mutual

/-- The symbol is not used if it is used nowhere in what takes the place of the variables. -/
theorem Term.unshadowed_replaceVariables (hf : ∀ x, (f x).Unshadowed false) :
    (t : Term) → (t.replaceVariables f).Unshadowed false
  | .univ _ | .danglingAccess _ | .importing _ | .const _ => trivial
  | .var name => hf name
  | .lam _ body => body.unshadowed_replaceVariables hf
  | .typedLam _ type body =>
    ⟨type.unshadowed_replaceVariables hf, body.unshadowed_replaceVariables hf⟩
  | .app operator argument =>
    ⟨operator.unshadowed_replaceVariables hf, argument.unshadowed_replaceVariables hf⟩
  | .quant _ bound name body => by
    refine ⟨bound.unshadowed_replaceVariables hf, ?_⟩
    rw [Bool.and_false]
    exact body.unshadowed_replaceVariables hf
  | .signature members => members.unshadowed_replaceVariables hf
  | .record members => members.unshadowed_replaceVariables hf
  | .access term _ => term.unshadowed_replaceVariables hf
  | .typeOf term => term.unshadowed_replaceVariables hf
  | .generic _ bound => bound.unshadowed_replaceVariables hf
  | .anno type term => ⟨type.unshadowed_replaceVariables hf, term.unshadowed_replaceVariables hf⟩
  | .letIn _ definition body =>
    ⟨definition.unshadowed_replaceVariables hf, body.unshadowed_replaceVariables hf⟩

theorem Bound.unshadowed_replaceVariables (hf : ∀ x, (f x).Unshadowed false) :
    (bound : Bound) → (bound.replaceVariables f).Unshadowed false
  | .unbounded => trivial
  | .type type => type.unshadowed_replaceVariables hf
  | .typeClass cls => cls.unshadowed_replaceVariables hf

theorem Fields.unshadowed_replaceVariables (hf : ∀ x, (f x).Unshadowed false) :
    (fields : Fields) → (fields.replaceVariables f).Unshadowed false
  | .nil => trivial
  | .cons _ term rest =>
    ⟨term.unshadowed_replaceVariables hf, rest.unshadowed_replaceVariables hf⟩

end

end ReplaceVariables

/-- The operation with the name, as a constant; a variable if there is none. -/
def Prelude.operationOrVariable (x : String) : Term :=
  (operator? x).elim (.var x) fun op ↦ .const (Prelude.operation op)

/-- The word for an operation, whichever of its names is given. -/
def Prelude.word (x : String) : String := (operator? x).elim x BinaryOp.name

/-- The program with the words for all operations. -/
def Term.inWords (p : Term) : Term := p.replaceVariables fun x ↦ .var (Prelude.word x)

theorem Prelude.word_ne_anonymous (x : String) : word x ≠ anonymous := by
  unfold word
  cases h : operator? x with
  | none => exact ne_anonymous_of_operator?_eq_none h
  | some op =>
    change op.name ≠ anonymous
    cases op <;> decide

theorem Prelude.operationOrVariable_word (x : String) :
    operationOrVariable (word x) = operationOrVariable x := by
  unfold word operationOrVariable
  cases h : operator? x with
  | none => simp [h]
  | some op => simp

theorem Term.replaceVariables_inWords (p : Term) :
    p.inWords.replaceVariables Prelude.operationOrVariable =
      p.replaceVariables Prelude.operationOrVariable := by
  rw [Term.inWords, Term.replaceVariables_replaceVariables]
  exact congrArg p.replaceVariables (funext Prelude.operationOrVariable_word)

theorem Term.OverPrelude.inWords {p : Term} (hp : p.OverPrelude) : p.inWords.OverPrelude := by
  refine p.overPrelude_replaceVariables (fun x ↦ ?_) hp
  trivial

/-- Words are in nobody's way. -/
theorem Term.unshadowed_inWords (p : Term) : p.inWords.Unshadowed false := by
  refine p.unshadowed_replaceVariables fun x ↦ ?_
  exact fun h ↦ absurd h (Prelude.word_ne_anonymous x)

/-! ### Elaboration -/

theorem Prelude.operation_type_clean (op : BinaryOp) :
    Clean (operation op).type (operation op).type := by
  have hoperand : operator? (operandType op) = none := by
    cases op <;> decide
  exact .arrow _ _ (.var hoperand) (.arrow _ _ (.var hoperand) (.var hoperand))

theorem Classified.IsLiteral.related {content : Classified Value} (h : content.IsLiteral)
    {live : Bool} :
    (content.map Core.const).Related (Found live) (Elaborates live) (content.map .const) := by
  cases h with
  | int n => exact ⟨rfl, .var (by decide), .const trivial⟩
  | string s => exact ⟨rfl, .var (by decide), .const trivial⟩

section Terms

variable {σ σ' κ κ' : Type} {M : Aliasing σ σ'} {live : Bool} {host : Host σ κ} {host' : Host σ' κ'}

/-- The same fuel, and imports that fail in lockstep. -/
structure Host.Resolves (M : Aliasing σ σ') (host : Host σ κ) (host' : Host σ' κ') : Prop where
  fuel : host.fuel = host'.fuel
  imports : ∀ filename,
    Lockstep M.pace (fun _ _ ↦ False) (host.resolve filename) (host'.resolve filename)

theorem variableRule_resolves (hlive : live = true → M.symbol = true) {fuel : Nat}
    {self self' : Term} {name : String} (hname : operator? name = none) :
    (variableRule fuel self name : Judged σ κ).Resolves M live (Found live)
      (variableRule fuel self' name : Judged σ' κ') := by
  refine inferredRule_resolves hlive fun hctx ↦ ?_
  unfold Check.lookup Env.lookup
  rcases hctx.lookup_cases name with ⟨hnone, hnone'⟩ | ⟨j, k, hj, hk, hjudgement⟩
  · rw [hnone, hnone']
    exact Check.reject_bind_lockstep
  · rw [hj, hk]
    exact .pure ⟨hjudgement.rank, hjudgement.type.found, .var hname⟩

/-- A name of an operation, where it is in scope, and the operation. -/
theorem operationRule_resolves (hlive : live = true → M.symbol = true) {fuel : Nat}
    {self self' : Term} {name : String} {op : BinaryOp} (hname : operator? name = some op)
    (hscope : name ∈ scope live) :
    (variableRule fuel self name : Judged σ κ).Resolves M live (Found live)
      (constantRule fuel self' (Prelude.operation op) : Judged σ' κ') := by
  refine inferredRule_resolves hlive fun hctx ↦ ?_
  unfold Check.lookup Env.lookup
  rw [hctx.operations name hscope op hname]
  exact .pure ⟨rfl, (Prelude.operation_type_clean op).found, .operation hname hscope⟩

theorem annotationRule_resolves (hlive : live = true → M.symbol = true) {fuel : Nat}
    {self self' : Term} {type term : Judged σ κ} {type' term' : Judged σ' κ'} [type.Grows]
    [term.Grows] (htype : type.Resolves M live Clean type')
    (hterm : term.Resolves M live Clean term') :
    (annotationRule fuel self type term).Resolves M live (Found live)
      (annotationRule fuel self' type' term') where
  infer hctx := by
    refine (htype.declare hctx anonymous).bind fun declared declared' hdeclared ↦ ?_
    refine (hterm.check hctx (Classified.related_typeOf hdeclared)).bind fun t t' ht ↦ ?_
    exact .pure ⟨hdeclared.rank, hdeclared.type.found, ht⟩
  check hctx _ _ hexpected := by
    refine (htype.declare hctx anonymous).bind fun declared declared' hdeclared ↦ ?_
    refine (Check.convert_lockstep hlive hctx hdeclared.rank hdeclared.type.found hexpected).bind
      fun _ _ _ ↦ ?_
    exact hterm.check hctx hexpected

variable [∀ filename, (host.resolve filename).Grows]

mutual

theorem Term.rule_resolves (hhost : host.Resolves M host') :
    (t : Term) → t.OverPrelude → {live : Bool} → (live = true → M.symbol = true) →
      t.Unshadowed live →
      (t.rule host).Resolves M live (Found live)
        ((t.replaceVariables Prelude.operationOrVariable).rule host')
  | .univ rank, _, live, hlive, _ => by
    unfold Term.rule Term.replaceVariables
    rw [← hhost.fuel]
    refine ⟨fun _ ↦ .pure ⟨rfl, .univ _, .univ _⟩, fun hctx _ _ hexpected ↦ ?_⟩
    refine (Check.normalize_elaborated hctx hexpected.term.elaborates).bind_of_grows
      (fun _ ↦ by split <;> infer_instance) fun kind kind' hkind ↦ ?_
    cases hkind with
    | univ n =>
      dsimp only
      split
      · exact .pure (.univ rank)
      · exact Check.reject_lockstep
    | _ => exact Check.reject_lockstep
  | .var name, _, live, hlive, hseen => by
    unfold Term.replaceVariables Prelude.operationOrVariable
    cases hname : operator? name with
    | none =>
      dsimp only [Option.elim]
      unfold Term.rule
      rw [← hhost.fuel]
      exact variableRule_resolves hlive hname
    | some op =>
      dsimp only [Option.elim]
      unfold Term.rule
      rw [← hhost.fuel]
      exact operationRule_resolves hlive hname hseen
  | .lam param body, hover, live, hlive, hseen => by
    have hbody := (body.rule_resolves hhost hover.2 hlive hseen).logged hlive
    unfold Term.rule Term.replaceVariables
    rw [← hhost.fuel]
    exact lambdaRule_resolves hlive hbody hover.1
  | .typedLam param type body, hover, live, hlive, hseen => by
    have htype := (type.rule_resolves hhost hover.2.1 hlive hseen.1).logged hlive
    have hbody := (body.rule_resolves hhost hover.2.2 hlive hseen.2).logged hlive
    unfold Term.rule Term.replaceVariables
    rw [← hhost.fuel]
    exact typedLambdaRule_resolves hlive htype hbody hover.1
  | .app operator argument, hover, live, hlive, hseen => by
    have hfunction := operator.rule_resolves hhost hover.1 hlive hseen.1
    have hargument := (argument.rule_resolves hhost hover.2 hlive hseen.2).logged hlive
    -- The rule depends on whether the operator is a lambda, and no variable turns into one.
    cases operator with
    | lam param body =>
      have hbody := (body.rule_resolves hhost hover.1.2 hlive hseen.1).logged hlive
      unfold Term.rule Term.replaceVariables
      rw [← hhost.fuel]
      exact appliedLambdaRule_resolves hfunction hbody hargument hover.1.1
    | typedLam param type body =>
      unfold Term.rule Term.replaceVariables
      rw [← hhost.fuel]
      exact appliedTypedLambdaRule_resolves hlive hfunction hargument
    | var name =>
      cases hname : operator? name <;>
        simp only [Term.replaceVariables, Prelude.operationOrVariable, hname, Option.elim]
          at hfunction ⊢ <;>
        unfold Term.rule <;>
        rw [← hhost.fuel] <;>
        exact applicationRule_resolves hlive (hfunction.logged hlive) hargument
    | _ =>
      unfold Term.rule Term.replaceVariables
      rw [← hhost.fuel]
      exact applicationRule_resolves hlive (hfunction.logged hlive) hargument
  | .quant polarity bound name body, hover, live, hlive, hseen => by
    have hbody := (body.rule_resolves hhost hover.2.2
      (fun h ↦ hlive (Bool.and_elim_right h)) hseen.2).logged
        fun h ↦ hlive (Bool.and_elim_right h)
    have hgrows (ctx : Ctx) :
        (bound.inferQuantifier host polarity name (body.rule host).logged ctx).Grows :=
      bound.inferQuantifier_grows polarity name (body.rule host).logged ctx
    unfold Term.rule Term.replaceVariables
    rw [← hhost.fuel]
    refine quantifierRule_resolves hlive fun hctx ↦ ?_
    exact bound.inferQuantifier_lockstep hhost hover.2.1 hlive hseen.1 polarity hover.1 hbody hctx
  | .signature members, hover, live, hlive, hseen => by
    unfold Term.rule Term.replaceVariables
    rw [← hhost.fuel]
    exact signatureRule_resolves hlive members.judged_grows
      (members.judged_resolve hhost hover hlive hseen)
  | .record members, hover, live, hlive, hseen => by
    unfold Term.rule Term.replaceVariables
    rw [← hhost.fuel]
    exact recordRule_resolves members.judged_grows
      (members.judged_resolve hhost hover hlive hseen)
  | .access term name, hover, live, hlive, hseen => by
    have hterm := (term.rule_resolves hhost hover hlive hseen).logged hlive
    unfold Term.rule Term.replaceVariables
    rw [← hhost.fuel]
    exact ⟨fun hctx ↦ inferAccess_lockstep name hterm hctx, fun hctx _ _ hexpected ↦
      checkTypeByInference_lockstep hlive hctx (inferAccess_lockstep name hterm hctx) hexpected⟩
  | .danglingAccess _, _, live, _, _ | .generic _ _, _, live, _, _ => by
    unfold Term.rule Term.replaceVariables
    exact ⟨fun _ ↦ Check.reject_lockstep, fun _ _ _ _ ↦ Check.reject_lockstep⟩
  | .anno type term, hover, live, hlive, hseen => by
    have htype := (type.rule_resolves hhost hover.1 hlive hseen.1).logged hlive
    have hterm := (term.rule_resolves hhost hover.2 hlive hseen.2).logged hlive
    unfold Term.rule Term.replaceVariables
    rw [← hhost.fuel]
    exact annotationRule_resolves hlive htype hterm
  | .letIn name definition body, hover, live, hlive, hseen => by
    have hdefinition := (definition.rule_resolves hhost hover.2.1 hlive hseen.1).logged hlive
    have hbody := (body.rule_resolves hhost hover.2.2 hlive hseen.2).logged hlive
    unfold Term.rule Term.replaceVariables
    rw [← hhost.fuel]
    exact letRule_resolves hdefinition hbody hover.1
  | .const content, hover, live, hlive, _ => by
    unfold Term.rule Term.replaceVariables
    rw [← hhost.fuel]
    exact inferredRule_resolves hlive fun _ ↦ .pure (Classified.IsLiteral.related hover)
  | .typeOf term, hover, live, hlive, hseen => by
    have hterm := (term.rule_resolves hhost hover hlive hseen).logged hlive
    unfold Term.rule Term.replaceVariables
    rw [← hhost.fuel]
    refine inferredRule_resolves hlive fun hctx ↦ (hterm.infer hctx).bind fun j k hj ↦ ?_
    have htypeOf := Classified.related_typeOf hj
    exact .pure ⟨htypeOf.rank, htypeOf.type.found, htypeOf.term.elaborates⟩
  | .importing filename, _, live, hlive, _ => by
    unfold Term.rule Term.replaceVariables importRule
    rw [← hhost.fuel]
    refine inferredRule_resolves hlive fun hctx ↦ ?_
    exact ((hhost.imports filename).mapError _ _).bind fun _ _ h ↦ h.elim

theorem Bound.inferQuantifier_lockstep (hhost : host.Resolves M host') :
    (bound : Bound) → bound.OverPrelude → {live : Bool} → (live = true → M.symbol = true) →
      bound.Unshadowed live → (polarity : Polarity) → {name : Option String} →
      (∀ x ∈ name, operator? x = none) → {body : Judged σ κ} → {body' : Judged σ' κ'} →
      [body.Grows] → body.Resolves M (bound.keepsAnonymous name && live) Clean body' →
      {ctx ctx' : Ctx} → ctx.ResolvesTo live ctx' →
      Lockstep M.pace (Classified.Related Clean (Elaborates live))
        (bound.inferQuantifier host polarity name body ctx)
        ((bound.replaceVariables Prelude.operationOrVariable).inferQuantifier host' polarity name
          body' ctx')
  | .unbounded, _, _, _, _, polarity, _, hname, _, _, _, hbody, _, _, hctx =>
    inferUnbounded_lockstep polarity hname hbody hctx
  | .type type, hover, _, hlive, hseen, polarity, _, hname, _, _, _, hbody, _, _, hctx => by
    have htype := (type.rule_resolves hhost hover hlive hseen).logged hlive
    unfold Bound.inferQuantifier Bound.replaceVariables
    rw [← hhost.fuel]
    exact inferTypeBound_lockstep polarity hname htype hbody hctx
  | .typeClass cls, hover, _, hlive, hseen, polarity, _, hname, _, _, _, hbody, _, _, hctx => by
    have hcls := (cls.rule_resolves hhost hover hlive hseen).logged hlive
    unfold Bound.inferQuantifier Bound.replaceVariables
    rw [← hhost.fuel]
    exact inferClassBound_lockstep polarity hname hcls hbody hctx

theorem Fields.judged_resolve (hhost : host.Resolves M host') :
    (fields : Fields) → fields.OverPrelude → {live : Bool} → (live = true → M.symbol = true) →
      fields.Unshadowed live →
      FieldsResolve M live (fields.judged host)
        ((fields.replaceVariables Prelude.operationOrVariable).judged host')
  | .nil, _, _, _, _ => .nil
  | .cons _ term rest, hover, _, hlive, hseen =>
    .cons ⟨rfl, hover.1, (term.rule_resolves hhost hover.2.1 hlive hseen.1).logged hlive⟩
      (rest.judged_resolve hhost hover.2.2 hlive hseen.2)

end

end Terms

end RankedTT
