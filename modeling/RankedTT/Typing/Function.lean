import RankedTT.Typing.Check

/-!
Typing rules for lambdas, applications and let bindings. A let binding is elaborated to the
application of a lambda; while its body is checked, the bound name stands for the normal form of the
definition.
-/

set_option autoImplicit false
set_option relaxedAutoImplicit false

namespace RankedTT

variable {σ κ : Type}

/-- `let name = definition in body`, against a type if one is expected. -/
def elaborateLet (fuel : Nat) (name : String) (definition body : Judged σ κ)
    (expected : Option (Classified Core)) (ctx : Ctx) : Check σ κ (Classified Core) := do
  Check.ensureFresh ctx name
  let defined ← definition.infer ctx
  let value ← Check.normalized fuel ctx defined
  let inner := ctx.bind name value
  let body ← body.ensure inner expected
  let result ← Check.normalize fuel inner body.type
  let type := Core.quantify .universal (defined.withTerm anonymous) result
  let function ← Check.lambda name body.term
  return ⟨body.rank, result, .apply ⟨body.rank, type, function⟩ defined.term⟩

def letRule (fuel : Nat) (self : Term) (name : String) (definition body : Judged σ κ) :
    Judged σ κ where
  term := self
  infer := elaborateLet fuel name definition body none
  check ctx expected := return (← elaborateLet fuel name definition body expected ctx).term

/-- A lambda against a function type. An annotation of the parameter has to agree with the
domain. -/
def checkLambda (fuel : Nat) (self : Term) (param : String) (type? : Option (Judged σ κ))
    (body : Judged σ κ) (ctx : Ctx) (expected : Classified Core) : Check σ κ Core := do
  match ← Check.normalize fuel ctx expected.term with
  | .quant .universal rank domain name codomain =>
    Check.ensureFresh ctx param
    if let some type := type? then
      let annotated ← type.declare fuel ctx param
      Check.convert fuel ctx.values annotated.typeOf ⟨rank + 1, .univ rank, domain⟩
    let inner := ctx.bindDeclared ⟨rank, domain, param⟩
    let codomain ←
      if name == anonymous || name == param then pure codomain
      else Check.subst (.single name (.var param)) codomain
    let body ← body.check inner (expected.withTerm codomain)
    Check.lambda param body
  | .quant polarity .. => Check.reject (.polarityMismatch self .universal polarity)
  | other => Check.reject (.expectedQuantifier self other)

def lambdaRule (fuel : Nat) (self : Term) (param : String) (body : Judged σ κ) : Judged σ κ where
  term := self
  infer _ := Check.reject (.cannotInferLambda param)
  check := checkLambda fuel self param none body

/-- The return type that is inferred for a lambda must not mention the parameter. -/
def typedLambdaRule (fuel : Nat) (self : Term) (param : String) (type body : Judged σ κ) :
    Judged σ κ where
  term := self
  infer ctx := do
    Check.ensureFresh ctx param
    let declared ← type.declare fuel ctx param
    let inner := ctx.bindDeclared declared
    let body ← body.infer inner
    let bodyType ← Check.normalize fuel inner body.type
    if bodyType.occursFree param then Check.reject (.dependentReturnType param bodyType)
    let type := Core.quantify .universal (declared.withTerm anonymous) bodyType
    return ⟨body.rank, type, ← Check.lambda param body.term⟩
  check := checkLambda fuel self param (some type) body

def inferApplication (fuel : Nat) (self : Term) (operator argument : Judged σ κ) (ctx : Ctx) :
    Check σ κ (Classified Core) := do
  let function ← operator.infer ctx
  match ← Check.normalize fuel ctx function.type with
  | .quant .universal rank domain name codomain =>
    let type := Core.quant .universal rank domain name codomain
    let argument ← argument.check ctx ⟨rank + 1, .univ rank, domain⟩
    let result :=
      if name == anonymous then codomain else codomain.subst (.single name argument)
    let result ← Check.normalize fuel ctx result
    return ⟨function.rank, result, .app function.rank type function.term argument⟩
  | .quant polarity .. => Check.reject (.polarityMismatch self .universal polarity)
  | type => Check.reject (.expectedFunction operator.term type)

def applicationRule (fuel : Nat) (self : Term) (operator argument : Judged σ κ) :
    Judged σ κ where
  term := self
  infer := inferApplication fuel self operator argument
  check := checkByInference fuel (inferApplication fuel self operator argument)

/-- An applied lambda against a type: the argument is inferred first and gives the domain. -/
def checkAppliedLambda (function argument : Judged σ κ) (ctx : Ctx)
    (expected : Classified Core) : Check σ κ Core := do
  let argument ← argument.infer ctx
  let arrow := expected.withTerm
    (Core.quantify .universal (argument.withTerm anonymous) expected.term)
  let function ← function.check ctx arrow
  let operator ← Run.ofOption (.rejected (.expectedType (.core expected.term) expected.type))
    (arrow.inhabitant? function)
  return .apply operator argument.term

/-- The application of a lambda without annotation is inferred like a let binding. -/
def appliedLambdaRule (fuel : Nat) (self : Term) (function : Judged σ κ) (param : String)
    (body argument : Judged σ κ) : Judged σ κ where
  term := self
  infer := elaborateLet fuel param argument body none
  check := checkAppliedLambda function argument

def appliedTypedLambdaRule (fuel : Nat) (self : Term) (function argument : Judged σ κ) :
    Judged σ κ where
  term := self
  infer := inferApplication fuel self function.logged argument
  check := checkAppliedLambda function argument

end RankedTT
