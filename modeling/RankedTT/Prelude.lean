import RankedTT.Core.Basic
import RankedTT.Core.Printer
import RankedTT.Env
import RankedTT.Term.Basic

/-!
The bindings that every session starts with: the types `int` and `string`, arithmetic, and the
concatenation of strings, each operation under its name and under its symbol.
-/

set_option autoImplicit false
set_option relaxedAutoImplicit false

namespace RankedTT.Prelude

/-- An integer literal. -/
def int (n : Int) : Term := .const ⟨0, .var "int", .int n⟩

/-- A string literal. -/
def string (s : String) : Term := .const ⟨0, .var "string", .str s⟩

/-- A type of values, which has no value itself. -/
def baseType : Classified Value := ⟨1, .univ 0, .absent⟩

def operandType : BinaryOp → String
  | .concat => "string"
  | _ => "int"

def symbol : BinaryOp → String
  | .plus => "+"
  | .minus => "-"
  | .times => "*"
  | .concat => "++"

/-- A curried operation on operands of one type. -/
def operation (op : BinaryOp) : Classified Value :=
  let operand := Core.var (operandType op)
  let arrow (codomain : Core) := Core.quant .universal 0 operand anonymous codomain
  ⟨0, arrow (arrow operand), .host (.binary op)⟩

/-- The bindings, the outermost first. -/
def bindings : List (String × Classified Value) :=
  [("int", baseType), ("string", baseType)] ++
    [BinaryOp.plus, .minus, .times, .concat].flatMap fun op ↦
      [(op.name, operation op), (symbol op, operation op)]

def env : Env (Classified Value) := Env.pushAll Env.empty bindings

/-- The bindings as the typing rules see them: values are constants, types stay variables. -/
def checkerEnv : Env (Classified Core) :=
  env.mapBindings fun name judgement ↦
    match judgement.term with
    | .absent => judgement.withTerm (.var name)
    | value => judgement.withTerm (.const value)

end RankedTT.Prelude
