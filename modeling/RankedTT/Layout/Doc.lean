/-!
Documents: texts with places where a line may be broken. A `line` is a newline in a broken layout
and a single space in a flat one, `nest` adds to the indentation of the newlines inside it, and a
`group` is laid out flat if it fits.
-/

set_option autoImplicit false
set_option relaxedAutoImplicit false

namespace RankedTT

/-- How a text is coloured. -/
inductive Style where
  | plain
  | keyword
  | member
  | literal
deriving DecidableEq, Repr, Inhabited

inductive Doc where
  | nil
  | text (style : Style) (content : String)
  | line
  | append (first second : Doc)
  | nest (amount : Int) (body : Doc)
  | group (body : Doc)
deriving Repr, Inhabited

namespace Doc

instance : Append Doc := ⟨.append⟩

def word (content : String) : Doc := .text .plain content

def keyword (content : String) : Doc := .text .keyword content

def member (content : String) : Doc := .text .member content

def literal (content : String) : Doc := .text .literal content

def space : Doc := word " "

def parens (body : Doc) : Doc := word "(" ++ body ++ word ")"

def parensIf (condition : Bool) (body : Doc) : Doc := if condition then body.parens else body

def braces (body : Doc) : Doc := word "\x7b" ++ body ++ word "\x7d"

/-- The items with `separator` between each two of them. -/
def intersperse (separator : Doc) : List Doc → Doc
  | [] => .nil
  | [item] => item
  | item :: rest => item ++ separator ++ intersperse separator rest

/-- The items, each but the last followed by `separator` and a place to break the line. -/
def separated (separator : String) (items : List Doc) : Doc :=
  intersperse (word separator ++ .line) items

/-- `{ item; item }`, with one item per line if the block does not fit. -/
def block (indent : Int) : List Doc → Doc
  | [] => word "\x7b\x7d"
  | items => .group (braces (.nest indent (.line ++ separated ";" items) ++ .line))

end Doc

end RankedTT
