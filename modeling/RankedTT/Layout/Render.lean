import RankedTT.Layout.Doc
import RankedTT.Text.Cluster

/-!
Laying out documents. Rendering starts broken at column 0. A group met in a broken layout is flat if
its content, laid out flat from the current column, and what follows it up to the next newline stay
within the width; groups in what follows count as broken.
-/

set_option autoImplicit false
set_option relaxedAutoImplicit false

namespace RankedTT

/-- A piece of output in one style. -/
structure Span where
  style : Style
  content : String
deriving Repr, Inhabited

namespace Doc

/-- Whether `doc`, flat or broken, and then `rest` fit within `width` from `column` on. The first
newline settles it. -/
def fits (width : Nat) (flat : Bool) : Doc → (rest : Nat → Bool) → (column : Nat) → Bool
  | .nil, rest, column => rest column
  | .text _ content, rest, column =>
    let column := column + Text.width content
    column ≤ width && rest column
  | .line, rest, column =>
    if flat then column + 1 ≤ width && rest (column + 1) else true
  | .append first second, rest, column => first.fits width flat (second.fits width flat rest) column
  | .nest _ body, rest, column => body.fits width flat rest column
  | .group body, rest, column => body.fits width flat rest column

/-- The output so far, last span first, and the column that it ends in. -/
structure Output where
  spans : List Span
  column : Nat

def Output.write (out : Output) (style : Style) (content : String) : Output :=
  ⟨⟨style, content⟩ :: out.spans, out.column + Text.width content⟩

def Output.newline (out : Output) (indentation : Nat) : Output :=
  ⟨⟨.plain, "\n" ++ String.ofList (List.replicate indentation ' ')⟩ :: out.spans, indentation⟩

/-- Lay out a document; `rest` tells whether what follows it fits from a given column on. -/
def layout (width : Nat) :
    (flat : Bool) → (indentation : Nat) → (rest : Nat → Bool) → Doc → Output → Output
  | _, _, _, .nil, out => out
  | _, _, _, .text style content, out => out.write style content
  | flat, indentation, _, .line, out =>
    if flat then out.write .plain " " else out.newline indentation
  | flat, indentation, rest, .append first second, out =>
    second.layout width flat indentation rest
      (first.layout width flat indentation (second.fits width false rest) out)
  | flat, indentation, rest, .nest amount body, out =>
    body.layout width flat (indentation + amount).toNat rest out
  | flat, indentation, rest, .group body, out =>
    body.layout width (flat || body.fits width true rest out.column) indentation rest out

def spans (width : Nat) (doc : Doc) : List Span :=
  (doc.layout width false 0 (fun _ ↦ true) ⟨[], 0⟩).spans.reverse

/-- The document as plain text. -/
def render (width : Nat) (doc : Doc) : String :=
  String.join ((doc.spans width).map Span.content)

end Doc

def Style.colour? : Style → Option String
  | .plain => none
  | .keyword => some "5"
  | .member => some "2"
  | .literal => some "6"

/-- A span with the escape codes that switch its colour on and off. -/
def Span.coloured (span : Span) : String :=
  match span.style.colour? with
  | none => span.content
  | some colour => "\x1b[0m\x1b[3" ++ colour ++ "m" ++ span.content ++ "\x1b[0m"

/-- The document as text with escape codes for colours. -/
def Doc.renderColoured (width : Nat) (doc : Doc) : String :=
  String.join ((doc.spans width).map Span.coloured)

end RankedTT
