import RankedTT.Typing.Function
import RankedTT.Typing.Quantifier
import RankedTT.Typing.Record

/-!
Bidirectional typing of surface terms. Every construct combines what its parts are judged to be, by
recursion on the term.
-/

set_option autoImplicit false
set_option relaxedAutoImplicit false

namespace RankedTT

section Leaves

variable {σ κ : Type}

def universeRule (fuel : Nat) (self : Term) (rank : Nat) : Judged σ κ where
  term := self
  infer _ := return .ofUniverse rank
  check ctx expected := do
    match ← Check.normalize fuel ctx expected.term with
    | .univ n =>
      if n == rank + 1 then return .univ rank
      else Check.reject (.universeMismatch self n (rank + 1))
    | other => Check.reject (.expectedUniverse self other)

/-- A rule for terms whose type can always be inferred. -/
def inferredRule (fuel : Nat) (self : Term) (infer : Ctx → Check σ κ (Classified Core)) :
    Judged σ κ where
  term := self
  infer := infer
  check := checkByInference fuel infer

def variableRule (fuel : Nat) (self : Term) (name : String) : Judged σ κ :=
  inferredRule fuel self fun ctx ↦ do
    let judgement ← Check.lookup ctx name
    return judgement.withTerm (.var name)

/-- A constant carries its classification. -/
def constantRule (fuel : Nat) (self : Term) (content : Classified Value) : Judged σ κ :=
  inferredRule fuel self fun _ ↦ return content.map .const

def typeOfRule (fuel : Nat) (self : Term) (term : Judged σ κ) : Judged σ κ :=
  inferredRule fuel self fun ctx ↦ return (← term.infer ctx).typeOf

/-- The host classifies what is imported. -/
def importRule (host : Host σ κ) (self : Term) (filename : String) : Judged σ κ :=
  inferredRule host.fuel self fun _ ↦ do
    let imported ← Run.mapError (.importFailed filename) (host.resolve filename)
    return imported.map .const

/-- An annotated term is checked against its annotation, which has to agree with what is
expected. -/
def annotationRule (fuel : Nat) (self : Term) (type term : Judged σ κ) : Judged σ κ where
  term := self
  infer ctx := do
    let declared ← type.declare fuel ctx anonymous
    return declared.withTerm (← term.check ctx declared.typeOf)
  check ctx expected := do
    let declared ← type.declare fuel ctx anonymous
    Check.convert fuel ctx.values declared.typeOf expected
    term.check ctx expected

def genericRule (self : Term) (name : String) : Judged σ κ where
  term := self
  infer _ := Check.reject (.danglingGeneric name)
  check _ _ := Check.reject (.danglingGeneric name)

end Leaves

mutual

/-- What the typing rules make of a term. -/
def Term.rule {σ κ : Type} (host : Host σ κ) (self : Term) : Judged σ κ :=
  match self with
  | .univ rank => universeRule host.fuel (.univ rank) rank
  | .var name => variableRule host.fuel (.var name) name
  | .lam param body => lambdaRule host.fuel (.lam param body) param (body.rule host).logged
  | .typedLam param type body =>
    typedLambdaRule host.fuel (.typedLam param type body) param (type.rule host).logged
      (body.rule host).logged
  | .app operator argument =>
    let function := operator.rule host
    let self := Term.app operator argument
    match operator with
    | .lam param body =>
      appliedLambdaRule host.fuel self function param (body.rule host).logged
        (argument.rule host).logged
    | .typedLam _ _ _ =>
      appliedTypedLambdaRule host.fuel self function (argument.rule host).logged
    | _ => applicationRule host.fuel self function.logged (argument.rule host).logged
  | .quant polarity bound name body =>
    quantifierRule host.fuel (.quant polarity bound name body)
      (bound.inferQuantifier host polarity name (body.rule host).logged)
  | .signature members => signatureRule host.fuel (.signature members) (members.judged host)
  | .record members => recordRule host.fuel (.record members) (members.judged host)
  | .access operator name =>
    accessRule host.fuel (.access operator name) (operator.rule host).logged name
  | .danglingAccess name => danglingAccessRule (.danglingAccess name) name
  | .generic name bound => genericRule (.generic name bound) name
  | .anno type term =>
    annotationRule host.fuel (.anno type term) (type.rule host).logged (term.rule host).logged
  | .letIn name definition body =>
    letRule host.fuel (.letIn name definition body) name (definition.rule host).logged
      (body.rule host).logged
  | .const content => constantRule host.fuel (.const content) content
  | .typeOf term => typeOfRule host.fuel (.typeOf term) (term.rule host).logged
  | .importing filename => importRule host (.importing filename) filename

def Bound.inferQuantifier {σ κ : Type} (host : Host σ κ) (polarity : Polarity)
    (name : Option String) (body : Judged σ κ) (bound : Bound) :
    Ctx → Check σ κ (Classified Core) :=
  match bound with
  | .unbounded => inferUnbounded polarity name body
  | .type type => inferTypeBound host.fuel polarity name (type.rule host).logged body
  | .typeClass cls => inferClassBound host.fuel polarity name (cls.rule host).logged body

def Fields.judged {σ κ : Type} (host : Host σ κ) (fields : Fields) :
    List (String × Judged σ κ) :=
  match fields with
  | .nil => []
  | .cons name term rest => (name, (term.rule host).logged) :: rest.judged host

end

namespace Term

variable {σ κ : Type}

def judged (host : Host σ κ) (t : Term) : Judged σ κ := (t.rule host).logged

/-- Synthesize the classification of a term. -/
def infer (host : Host σ κ) (ctx : Ctx) (t : Term) : Check σ κ (Classified Core) :=
  (t.judged host).infer ctx

/-- Elaborate a term against the type that `expected` is about. -/
def check (host : Host σ κ) (ctx : Ctx) (t : Term) (expected : Classified Core) : Check σ κ Core :=
  (t.judged host).check ctx expected

/-- Check against a type if one is expected, and infer otherwise. -/
def ensure (host : Host σ κ) (ctx : Ctx) (t : Term) (expected : Option (Classified Core)) :
    Check σ κ (Classified Core) :=
  (t.judged host).ensure ctx expected

/-- Declare a name that ranges over the type `t`. -/
def declare (host : Host σ κ) (ctx : Ctx) (t : Term) (name : String) :
    Check σ κ (Classified String) :=
  (t.judged host).declare host.fuel ctx name

end Term

/-- Elaborate a complete program in the environment provided by a host. -/
def checkProgram {σ κ : Type} (host : Host σ κ) (env : Env (Classified Core)) (t : Term) :
    Check σ κ (Classified Core) :=
  t.infer host ⟨env⟩

end RankedTT
