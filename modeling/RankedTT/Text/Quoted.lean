import RankedTT.Text.Printable
import RankedTT.Text.GraphemeExtend
import RankedTT.Env

/-!
Quoted strings. Quotes, backslashes and the common controls have short escapes; a character that
has no printed form, or none apart from the character before it, is written by its code point in
hexadecimal; every other character stands for itself.
-/

set_option autoImplicit false
set_option relaxedAutoImplicit false

namespace RankedTT.Text

def escapeCodePoint (c : Char) : String :=
  "\\u\x7b" ++ String.ofList (Nat.toDigits 16 c.toNat) ++ "\x7d"

/-- The halfwidth sound marks of katakana belong to the cluster before them, and yet are letters
with a cell of their own. -/
def halfwidthSoundMarks : RangeTable := [(0xFF9E, 0xFF9F)]

/-- Whether `c` is printed only together with the character before it. -/
def isCombining (c : Char) : Bool := isGraphemeExtend c && !halfwidthSoundMarks.contains c

def escapeChar (c : Char) : String :=
  if c.toNat = 0 then "\\0"
  else if c = '\t' then "\\t"
  else if c = '\r' then "\\r"
  else if c = '\n' then "\\n"
  else if c = '\\' then "\\\\"
  else if c = '"' then "\\\""
  else if isCombining c || !isPrintable c then escapeCodePoint c
  else c.toString

def quote (s : String) : String :=
  "\"" ++ String.join (s.toList.map escapeChar) ++ "\""

end RankedTT.Text

namespace RankedTT.Env

/-- The bindings of an environment of texts, quoted, the most recent first. -/
def quoted (env : Env String) : String :=
  "\x7b" ++ ", ".intercalate
    (List.map (fun entry ↦ Text.quote entry.1 ++ ": " ++ Text.quote entry.2) env) ++ "\x7d"

end RankedTT.Env
