import RankedTT.Journal
import RankedTT.Layout.Printer

/-!
Settings of a session: when to colour, which messages to log, and how to print. Colours and levels
are read from texts in which case does not matter; a text that names none gives the default.
-/

set_option autoImplicit false
set_option relaxedAutoImplicit false

namespace RankedTT

inductive ColourChoice where
  | always
  | alwaysAnsi
  | never
  | auto
deriving DecidableEq, Repr, Inhabited

structure Settings where
  colourise : ColourChoice
  logLevel : LogLevel
  config : PrintConfig
deriving Inhabited

namespace Settings

def standard : Settings := ⟨.auto, .info, .standard⟩

def colourNames : List (String × ColourChoice) :=
  [("always", .always), ("always-ansi", .alwaysAnsi), ("never", .never), ("auto", .auto)]

def levelNames : List (String × LogLevel) :=
  [("OFF", .off), ("ERROR", .error), ("WARN", .warn), ("INFO", .info), ("DEBUG", .debug),
    ("TRACE", .trace)]

/-- The characters outside ASCII whose upper case lies in ASCII. -/
def upperCaseInAscii : List (Char × String) :=
  [('ß', "SS"), ('ı', "I"), ('ſ', "S"), ('ﬀ', "FF"), ('ﬁ', "FI"), ('ﬂ', "FL"), ('ﬃ', "FFI"),
    ('ﬄ', "FFL"), ('ﬅ', "ST"), ('ﬆ', "ST")]

/-- The upper case of a text, as far as it lies in ASCII; other characters stay as they are, which
is enough to compare with a name in ASCII. -/
def upperCase (s : String) : String :=
  String.join (s.toList.map fun c ↦ (upperCaseInAscii.lookup c).getD c.toUpper.toString)

/-- Colour names are compared up to the case of ASCII letters. -/
def readColour (s : String) : ColourChoice :=
  (colourNames.lookup (s.map Char.toLower)).getD standard.colourise

/-- Level names are compared in upper case. -/
def readLevel (s : String) : LogLevel := (levelNames.lookup (upperCase s)).getD standard.logLevel

/-- The settings given by two texts, each of which may be missing. -/
def ofTexts (colour level : Option String) : Settings :=
  { standard with
    colourise := (colour.map readColour).getD standard.colourise
    logLevel := (level.map readLevel).getD standard.logLevel }

end Settings

end RankedTT
