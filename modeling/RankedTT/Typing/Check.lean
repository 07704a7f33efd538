import RankedTT.Conversion
import RankedTT.Journal

/-!
The steps that all typing rules share. Checking runs inside a host, which resolves imports and has a
state of its own; it takes fuel for normalization. Terms that normalization and substitution rebuild
get their stamps at once, before they can be copied.
-/

set_option autoImplicit false
set_option relaxedAutoImplicit false

namespace RankedTT

/-- What a host provides: the fuel of each normalization, and the classified value of an imported
program. -/
structure Host (σ κ : Type) where
  fuel : Nat
  resolve : String → Run (Progress σ) κ (Classified Value)

/-- Checking in a host with states `σ`, whose imports fail for causes `κ`. -/
abbrev Check (σ κ α : Type) := Run (Progress σ) (Refusal κ) α

namespace Check

variable {σ κ : Type}

def reject {α : Type} (cause : TypeError) : Check σ κ α := Run.fail (.rejected cause)

def record (event : Event) : Check σ κ Unit := modify (Progress.record event)

/-- Give stamps to the function bodies that were just built. -/
def stamp (t : Core) : Check σ κ Core := modifyGet (Progress.stamp t)

/-- A new function body. -/
def lambda (param : String) (body : Core) : Check σ κ Core := stamp (.lam param none body)

def subst (images : Substitution) (t : Core) : Check σ κ Core :=
  stamp (t.subst images)

def ofNormalizer {α : Type} (outcome : Outcome BadProjection α) : Check σ κ α :=
  Run.mapError (fun cause ↦ .rejected (.badProjection cause)) (Run.ofOutcome outcome)

def normalize (fuel : Nat) (ctx : Ctx) (t : Core) : Check σ κ Core := do
  stamp (← ofNormalizer (t.normalForm fuel ctx.values))

/-- The type and the term of a judgement, each normalized with its own counter. -/
def normalized (fuel : Nat) (ctx : Ctx) (judgement : Classified Core) :
    Check σ κ (Classified Core) := do
  let type ← normalize fuel ctx judgement.type
  let term ← normalize fuel ctx judgement.term
  return ⟨judgement.rank, type, term⟩

def lookup (ctx : Ctx) (name : String) : Check σ κ (Classified Core) :=
  Run.ofExcept (fun cause ↦ .rejected (.unbound cause)) (ctx.vars.lookup name)

def ensureFresh (ctx : Ctx) (name : String) : Check σ κ Unit :=
  if ctx.isFresh name then pure () else reject (.shadowing name)

/-- The found judgement has to be equal to the expected one. -/
def convert (fuel : Nat) (env : NormEnv) (found expected : Classified Core) : Check σ κ Unit := do
  record (.comparing env found expected)
  match ← ofNormalizer (found.mismatch? fuel env expected) with
  | none => return
  | some cause => reject cause

end Check

/-- A surface term together with what the typing rules make of it. `infer` synthesizes its
classification; `check` elaborates it against a type, which is given by the judgement about that
type. -/
structure Judged (σ κ : Type) where
  term : Term
  infer : Ctx → Check σ κ (Classified Core)
  check : Ctx → Classified Core → Check σ κ Core

namespace Judged

variable {σ κ : Type}

/-- The same rules, with a message before each check and after each successful inference. -/
def logged (rule : Judged σ κ) : Judged σ κ where
  term := rule.term
  infer ctx := do
    let judgement ← rule.infer ctx
    Check.record (.inferred ctx rule.term judgement.type)
    return judgement
  check ctx expected := do
    Check.record (.checking ctx rule.term expected.term)
    rule.check ctx expected

/-- Check against a type if one is expected, and infer otherwise. -/
def ensure (rule : Judged σ κ) (ctx : Ctx) :
    Option (Classified Core) → Check σ κ (Classified Core)
  | some expected => do
    let elaborated ← rule.check ctx expected
    Run.ofOption (.rejected (.expectedType (.core expected.term) expected.type))
      (expected.inhabitant? elaborated)
  | none => rule.infer ctx

/-- Declare a name that ranges over a type. -/
def declare (fuel : Nat) (type : Judged σ κ) (ctx : Ctx) (name : String) :
    Check σ κ (Classified String) := do
  let judgement ← Check.normalized fuel ctx (← type.infer ctx)
  Run.ofOption (.rejected (.expectedType (.surface type.term) judgement.type))
    (judgement.declare? name)

end Judged

/-- Check a term by inferring its type and comparing it with the expected one. -/
def checkByInference {σ κ : Type} (fuel : Nat) (infer : Ctx → Check σ κ (Classified Core))
    (ctx : Ctx) (expected : Classified Core) : Check σ κ Core := do
  let found ← infer ctx
  Check.convert fuel ctx.values found.typeOf expected
  return found.term

/-- Check a type by inference; if a universe of another rank is expected, the ranks are
reported. -/
def checkTypeByInference {σ κ : Type} (fuel : Nat) (term : Term)
    (infer : Ctx → Check σ κ (Classified Core)) (ctx : Ctx) (expected : Classified Core) :
    Check σ κ Core := do
  let found ← infer ctx
  let expectedType ← Check.normalize fuel ctx expected.term
  let foundType ← Check.normalize fuel ctx found.type
  match expectedType, foundType with
  | .univ m, .univ n => if m != n then Check.reject (.universeMismatch term m n)
  | _, _ => pure ()
  Check.convert fuel ctx.values found.typeOf expected
  return found.term

end RankedTT
