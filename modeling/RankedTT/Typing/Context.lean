import RankedTT.Core.Printer
import RankedTT.Normal.Basic

/-!
Typing contexts. A context classifies every name in scope; the term of a classification is the value
of a let-bound name, or the name itself if it has no value. Extending a context never changes it.
-/

set_option autoImplicit false
set_option relaxedAutoImplicit false

namespace RankedTT

structure Ctx where
  vars : Env (Classified Core)
deriving Inhabited

namespace Ctx

/-- The values of the names in scope, as the normalizer wants them. -/
def values (ctx : Ctx) : NormEnv := ctx.vars.mapBindings fun _ judgement ↦ judgement.term

def maps (ctx : Ctx) (name : String) : Bool := ctx.vars.maps name

/-- Names cannot be bound again while they are in scope; the anonymous name can. -/
def isFresh (ctx : Ctx) (name : String) : Bool := name == anonymous || !ctx.maps name

def bind (ctx : Ctx) (name : String) (judgement : Classified Core) : Ctx :=
  ⟨ctx.vars.push name judgement⟩

/-- Bind a name without a value. -/
def bindDeclared (ctx : Ctx) (declaration : Classified String) : Ctx :=
  ctx.bind declaration.term declaration.asVariable

/-- `x : A`, or `x = e : A` for a name with a value. -/
def bindingDoc (config : PrintConfig) (name : String) (judgement : Classified Core) : Doc :=
  let isValue := match judgement.term with
    | .var x => x != name
    | _ => true
  let head :=
    if isValue then
      .word name ++ .space ++ .word "=" ++ .space ++ judgement.term.doc config .binder
    else .word name
  head ++ .space ++ .word ":" ++ .space ++ judgement.type.doc config .binder

end Ctx

instance : ToDoc Ctx := ⟨fun config _ ctx ↦ ctx.vars.doc (Ctx.bindingDoc config)⟩

end RankedTT
