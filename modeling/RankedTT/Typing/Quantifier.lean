import RankedTT.Typing.Check

/-!
Typing rules for quantifiers. A name without a bound ranges over the types of values. A class bound
`(x <: C) -> B`, where `C` maps a type `A` into a universe, stands for `(x : A) -> C x -> B`.
-/

set_option autoImplicit false
set_option relaxedAutoImplicit false

namespace RankedTT

variable {σ κ : Type}

/-- The quantifier that binds `binder` in the type `body`. -/
def quantifyOver (polarity : Polarity) (binder : Classified String) (body : Judged σ κ)
    (ctx : Ctx) : Check σ κ (Classified Core) := do
  let range ← body.infer (ctx.bindDeclared binder)
  match range.type with
  | .univ _ => return range.map (Core.quantify polarity binder)
  | type => Check.reject (.quantifierOverTerm body.term type)

def quantifyOverClass (fuel : Nat) (polarity : Polarity) (name : String)
    (cls body : Judged σ κ) (ctx : Ctx) : Check σ κ (Classified Core) := do
  let cls ← Check.normalized fuel ctx (← cls.infer ctx)
  match cls.type with
  | .quant .universal rank domain _ codomain =>
    match codomain with
    | .univ instanceRank =>
      let parameter : Classified String := ⟨rank, domain, name⟩
      let evidence : Classified String := ⟨instanceRank, .apply cls (.var name), anonymous⟩
      let range ← quantifyOver polarity evidence body (ctx.bindDeclared parameter)
      return range.map (Core.quantify polarity parameter)
    | _ => Check.reject (.classNotIntoUniverse cls.term codomain)
  | type => Check.reject (.classNotFunction cls.term type)

/-- A type is checked against universes only. -/
def quantifierRule (fuel : Nat) (self : Term) (infer : Ctx → Check σ κ (Classified Core)) :
    Judged σ κ where
  term := self
  infer := infer
  check ctx expected := do
    match ← Check.normalize fuel ctx expected.term with
    | .univ _ => checkTypeByInference fuel self infer ctx expected
    | other => Check.reject (.expectedUniverse self other)

/-- The name that a quantifier binds. -/
def boundName (name : Option String) : String := name.getD anonymous

def inferUnbounded (polarity : Polarity) (name : Option String) (body : Judged σ κ) (ctx : Ctx) :
    Check σ κ (Classified Core) := do
  Check.ensureFresh ctx (boundName name)
  quantifyOver polarity ⟨1, .univ 0, boundName name⟩ body ctx

def inferTypeBound (fuel : Nat) (polarity : Polarity) (name : Option String)
    (type body : Judged σ κ) (ctx : Ctx) : Check σ κ (Classified Core) := do
  Check.ensureFresh ctx (boundName name)
  let binder ← type.declare fuel ctx (boundName name)
  quantifyOver polarity binder body ctx

def inferClassBound (fuel : Nat) (polarity : Polarity) (name : Option String)
    (cls body : Judged σ κ) (ctx : Ctx) : Check σ κ (Classified Core) := do
  Check.ensureFresh ctx (boundName name)
  match name with
  | some name => quantifyOverClass fuel polarity name cls body ctx
  | none => Check.reject .classBoundNeedsName

end RankedTT
