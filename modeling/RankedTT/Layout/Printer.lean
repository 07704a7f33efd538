import RankedTT.Env
import RankedTT.Layout.Render

/-!
Printing options, operator precedences, and the class of things that have a printed form.
-/

set_option autoImplicit false
set_option relaxedAutoImplicit false

namespace RankedTT

structure PrintConfig where
  /-- The column that lines should not exceed. -/
  width : Nat
  /-- The indentation of a nested line. -/
  indent : Int
  /-- Whether a quantifier whose name does not occur in its codomain is printed as an arrow. -/
  arrowSugar : Bool
  /-- Whether the universe of values is printed with its rank. -/
  baseRank : Bool
deriving DecidableEq, Repr

def PrintConfig.standard : PrintConfig := ⟨100, 4, true, false⟩

/-- For messages, which are written on one very wide line. -/
def PrintConfig.oneLine : PrintConfig := { PrintConfig.standard with width := 10000 }

instance : Inhabited PrintConfig := ⟨.standard⟩

/-- How tightly the context of a term binds; a term that binds less tightly is put in
parentheses. -/
abbrev Precedence := Nat

namespace Precedence

/-- The body of a binder. -/
def binder : Precedence := 0

/-- The operand of a type annotation. -/
def typing : Precedence := 1

/-- The left side of an arrow. -/
def arrowLeft : Precedence := 2

/-- The operator of an application. -/
def operator : Precedence := 3

/-- The operand of an application and the target of a projection. -/
def atom : Precedence := 4

end Precedence

class ToDoc (α : Type) where
  doc : PrintConfig → Precedence → α → Doc

section

variable {α : Type} [ToDoc α]

def print (config : PrintConfig) (x : α) : String :=
  (ToDoc.doc config .binder x).render config.width

def printColoured (config : PrintConfig) (x : α) : String :=
  (ToDoc.doc config .binder x).renderColoured config.width

/-- The printed form on one line, as it stands in messages. -/
def oneLine (x : α) : String := print .oneLine x

end

instance : ToDoc String := ⟨fun _ _ name ↦ .word name⟩

/-- The bindings of an environment, the outermost first. -/
def Env.doc {α : Type} (entry : String → α → Doc) (env : Env α) : Doc :=
  .group (Doc.separated "," (env.reverse.map fun binding ↦ entry binding.1 binding.2))

instance {α : Type} [ToDoc α] : ToDoc (Env α) :=
  ⟨fun config _ env ↦ env.doc fun name binding ↦
    .word name ++ .space ++ .word ":" ++ .space ++ ToDoc.doc config .binder binding⟩

end RankedTT
