import RankedTT.Core.Printer
import RankedTT.Term.Basic

/-!
The printed form of surface terms. Constants are printed as their value.
-/

set_option autoImplicit false
set_option relaxedAutoImplicit false

namespace RankedTT

mutual

def Term.doc (config : PrintConfig) (prec : Precedence) : Term → Doc
  | .univ rank => universeDoc config rank
  | .var name => .word name
  | .lam param body =>
    .parensIf (prec > .binder) <| .group <| .nest config.indent <|
      .word "\\" ++ .word param ++ .word "." ++ .line ++ body.doc config .binder
  | .typedLam param type body =>
    .parensIf (prec > .binder) <| .group <| .nest config.indent <|
      .word "\\" ++ .parens (declarationDoc param (type.doc config .binder)) ++ .word "." ++
        .line ++ body.doc config .binder
  | .app operator argument =>
    .parensIf (prec > .operator) <| .group <| .nest config.indent <|
      operator.doc config .operator ++ .line ++ argument.doc config .atom
  | .quant polarity bound name body =>
    .parensIf (prec > .binder) <| .group <|
      bound.headDoc config polarity name ++ .line ++ body.doc config .binder
  | .signature members =>
    .keyword "struct" ++ .space ++ .block config.indent (members.docs config ":")
  | .record members =>
    .keyword "new" ++ .space ++ .block config.indent (members.docs config "=")
  | .access operator name => operator.doc config .atom ++ .word "." ++ .member name
  | .danglingAccess name => .word "." ++ .member name
  | .generic name bound => .parens (bound.doc config name)
  | .anno type term =>
    .parens (term.doc config .arrowLeft ++ .space ++ .word ":" ++ .space ++
      type.doc config .binder)
  | .letIn name definition body =>
    .parensIf (prec > .binder) <| .group <|
      .keyword "let" ++ .space ++
        (.word name ++ .space ++ .word "=" ++ .space ++ definition.doc config .binder) ++
        .space ++ .keyword "in" ++ .line ++ body.doc config .binder
  | .const content => content.term.doc
  | .typeOf term =>
    .parensIf (prec > .operator) (.keyword "typeof" ++ .space ++ term.doc config .atom)
  | .importing filename =>
    .parensIf (prec > .operator)
      (.keyword "import" ++ .space ++ .literal (Text.quote filename))

/-- `x : A`, `x <: C` or just `x` -/
def Bound.doc (config : PrintConfig) (name : String) : Bound → Doc
  | .unbounded => .word name
  | .type type => declarationDoc name (type.doc config .binder)
  | .typeClass cls =>
    .word name ++ .space ++ .word "<:" ++ .space ++ cls.doc config .binder

/-- A quantifier up to its body. Without a name a type and a class are printed alike. -/
def Bound.headDoc (config : PrintConfig) (polarity : Polarity) (name : Option String) :
    Bound → Doc
  | .unbounded =>
    match name with
    | some name => .keyword polarity.keyword ++ .space ++ .word name ++ .word "."
    | none => .keyword polarity.keyword ++ .word "."
  | .type type =>
    match name with
    | some name =>
      .parens (declarationDoc name (type.doc config .binder)) ++ .space ++
        .word polarity.connective
    | none => type.doc config .arrowLeft ++ .space ++ .word polarity.connective
  | .typeClass cls =>
    match name with
    | some name =>
      .parens (.word name ++ .space ++ .word "<:" ++ .space ++ cls.doc config .binder) ++
        .space ++ .word polarity.connective
    | none => cls.doc config .arrowLeft ++ .space ++ .word polarity.connective

def Fields.docs (config : PrintConfig) (symbol : String) : Fields → List Doc
  | .nil => []
  | .cons name term rest =>
    (.word name ++ .space ++ .word symbol ++ .space ++ term.doc config .binder) ::
      rest.docs config symbol

end

instance : ToDoc Term := ⟨Term.doc⟩

end RankedTT
