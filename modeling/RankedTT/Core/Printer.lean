import RankedTT.Core.FreeNames
import RankedTT.Layout.Printer
import RankedTT.Text.Quoted

/-!
The printed form of universes, values, core terms and judgements. The ranks of binders and members,
the types recorded on operators and the stamps of lambdas are left out.
-/

set_option autoImplicit false
set_option relaxedAutoImplicit false

namespace RankedTT

def Polarity.connective : Polarity → String
  | .universal => "->"
  | .existential => "&"

def Polarity.keyword : Polarity → String
  | .universal => "forall"
  | .existential => "exists"

/-- The universe of a rank, rank included. -/
def universeName (rank : Nat) : String := "Type" ++ toString rank

def universeDoc (config : PrintConfig) (rank : Nat) : Doc :=
  .keyword (if rank = 0 && !config.baseRank then "Type" else universeName rank)

def BinaryOp.name : BinaryOp → String
  | .plus => "plus"
  | .minus => "minus"
  | .times => "times"
  | .concat => "concat"

mutual

def Value.doc : Value → Doc
  | .absent => .word "<type>"
  | .int n => .literal (toString n)
  | .str s => .literal (Text.quote s)
  | .record members => .group (.braces (.separated "," (Value.memberDocs members)))
  | .closure _ param _ _ => .word ("<closure \\" ++ param ++ ">")
  | .host function => .word ("<host " ++ function.name ++ ">")

def Value.memberDocs : List Value → List Doc
  | [] => []
  | m :: ms => m.doc :: Value.memberDocs ms

/-- The name of a host function; a partial application is named after its first operand. -/
def HostFn.name : HostFn → String
  | .binary op => op.name
  | .applied op lhs _ => op.name ++ " " ++ lhs.doc.render PrintConfig.standard.width
  | .identity => "id"
  | .failing => "fail"
  | .halving => "halve"

end

instance : ToDoc Value := ⟨fun _ _ value ↦ value.doc⟩

/-- `name : type` -/
def declarationDoc (name : String) (type : Doc) : Doc :=
  .word name ++ .space ++ .word ":" ++ .space ++ type

mutual

def Core.doc (config : PrintConfig) (prec : Precedence) : Core → Doc
  | .univ rank => universeDoc config rank
  | .quant polarity _ domain name codomain =>
    let dependent := name != anonymous && (!config.arrowSugar || codomain.occursFree name)
    let head :=
      if dependent then .parens (declarationDoc name (domain.doc config .binder))
      else domain.doc config .arrowLeft
    .parensIf (prec > .binder) <| .group <|
      head ++ .space ++ .word polarity.connective ++ .line ++ codomain.doc config .binder
  | .signature members =>
    .keyword "struct" ++ .space ++ .block config.indent (members.docs config)
  | .lam param _ body =>
    .parensIf (prec > .binder) <| .group <| .nest config.indent <|
      .word "\\" ++ .word param ++ .word "." ++ .line ++ body.doc config .binder
  | .record members =>
    .keyword "new" ++ .space ++ .block config.indent (Core.memberDocs config members)
  | .app _ _ operator operand =>
    .parensIf (prec > .operator) <| .group <| .nest config.indent <|
      operator.doc config .operator ++ .line ++ operand.doc config .atom
  | .proj _ _ operator index =>
    operator.doc config .atom ++ .word "." ++ .member ("#" ++ toString index)
  | .var name => .word name
  | .const value => value.doc

def Telescope.docs (config : PrintConfig) : Telescope → List Doc
  | .nil => []
  | .cons _ type name rest => declarationDoc name (type.doc config .binder) :: rest.docs config

def Core.memberDocs (config : PrintConfig) : List Core → List Doc
  | [] => []
  | m :: ms => m.doc config .binder :: Core.memberDocs config ms

end

instance : ToDoc Core := ⟨Core.doc⟩

/-- `term : type : universe` -/
def Classified.doc {α : Type} [ToDoc α] (config : PrintConfig) (prec : Precedence)
    (judgement : Classified α) : Doc :=
  .parensIf (prec > .typing) <| .group <|
    ToDoc.doc config .arrowLeft judgement.term ++ .line ++ .word ":" ++ .space ++
      judgement.type.doc config .arrowLeft ++ .line ++ .word ":" ++ .space ++
      universeDoc config judgement.rank

instance {α : Type} [ToDoc α] : ToDoc (Classified α) := ⟨Classified.doc⟩

end RankedTT
