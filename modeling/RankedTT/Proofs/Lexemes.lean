import RankedTT.Core.Printer
import Mathlib.Tactic.SplitIfs

/-!
Reading words, numbers and escaped characters from the front of a text. Each reader takes off what
the printer wrote, as long as the text that follows cannot continue it: a word is followed by a
character that no word contains, and a number by no digit.
-/

set_option autoImplicit false
set_option relaxedAutoImplicit false

namespace RankedTT.Text

/-- The text does not begin with a character that satisfies `p`. -/
def Ends (p : Char → Bool) (rest : List Char) : Prop := ∀ c ∈ rest.head?, p c = false

section Spans

variable {p : Char → Bool} {text rest : List Char}

theorem ends_cons {c : Char} (h : p c = false) : Ends p (c :: rest) := by simpa [Ends] using h

theorem takeWhile_append (htext : ∀ c ∈ text, p c = true) (hrest : Ends p rest) :
    (text ++ rest).takeWhile p = text := by
  rw [List.takeWhile_append_of_pos htext]
  cases rest with
  | nil => simp
  | cons c rest =>
    have hc : p c = false := hrest c rfl
    simp [hc]

theorem dropWhile_append (htext : ∀ c ∈ text, p c = true) (hrest : Ends p rest) :
    (text ++ rest).dropWhile p = rest := by
  rw [List.dropWhile_append_of_pos htext]
  cases rest with
  | nil => rfl
  | cons c rest =>
    have hc : p c = false := hrest c rfl
    simp [hc]

end Spans

/-! ### Words -/

/-- The characters that the printer writes around words. -/
def punctuation : List Char :=
  [' ', '\n', '(', ')', '\x7b', '\x7d', ';', ':', '.', '\\', '"', '-', '&', '*']

def isWordChar (c : Char) : Bool := !punctuation.contains c

/-- The longest word at the front of a text, and what follows it. -/
def readWord (text : List Char) : List Char × List Char :=
  (text.takeWhile isWordChar, text.dropWhile isWordChar)

theorem readWord_append {word rest : List Char} (hword : ∀ c ∈ word, isWordChar c = true)
    (hrest : Ends isWordChar rest) : readWord (word ++ rest) = (word, rest) := by
  rw [readWord, takeWhile_append hword hrest, dropWhile_append hword hrest]

/-- Letters and digits stand in words. -/
theorem isWordChar_of_isAlphanum {c : Char} (h : c.isAlphanum = true) : isWordChar c = true := by
  have hpunctuation : punctuation.all (fun c ↦ !c.isAlphanum) = true := by decide
  simp only [isWordChar, Bool.not_eq_true', List.contains_eq_mem, decide_eq_false_iff_not]
  intro hc
  have hnot : (!c.isAlphanum) = true := List.all_eq_true.mp hpunctuation c hc
  rw [h] at hnot
  cases hnot

theorem isWordChar_of_isDigit {c : Char} (h : c.isDigit = true) : isWordChar c = true :=
  isWordChar_of_isAlphanum (by rw [Char.isAlphanum, h, Bool.or_true])

/-! ### Numbers -/

/-- The number at the front of a text, and what follows it. -/
def readNumber (text : List Char) : Nat × List Char :=
  (Nat.ofDigitChars 10 (text.takeWhile Char.isDigit) 0, text.dropWhile Char.isDigit)

theorem isDigit_of_mem_digits {n : Nat} {c : Char} (h : c ∈ Nat.toDigits 10 n) :
    c.isDigit = true :=
  Nat.isDigit_of_mem_toDigits (by decide) (by decide) h

/-- A number begins with a digit. -/
theorem exists_toDigits_eq_cons (n : Nat) :
    ∃ c digits, Nat.toDigits 10 n = c :: digits ∧ c.isDigit = true := by
  cases hdigits : Nat.toDigits 10 n with
  | nil => exact absurd hdigits Nat.toDigits_ne_nil
  | cons c digits => exact ⟨c, digits, rfl, isDigit_of_mem_digits (hdigits ▸ List.mem_cons_self)⟩

theorem readNumber_append (n : Nat) {rest : List Char} (hrest : Ends Char.isDigit rest) :
    readNumber (Nat.toDigits 10 n ++ rest) = (n, rest) := by
  have hdigits : ∀ c ∈ Nat.toDigits 10 n, c.isDigit = true := fun _ ↦ isDigit_of_mem_digits
  rw [readNumber, takeWhile_append hdigits hrest, dropWhile_append hdigits hrest,
    Nat.ofDigitChars_ten_toDigits]

/-- The rank of a universe that is written as the word. -/
def universeRank? : List Char → Option Nat
  | 'T' :: 'y' :: 'p' :: 'e' :: digits =>
    if digits.all Char.isDigit then some (Nat.ofDigitChars 10 digits 0) else none
  | _ => none

theorem universeRank?_digits (n : Nat) :
    universeRank? ('T' :: 'y' :: 'p' :: 'e' :: Nat.toDigits 10 n) = some n := by
  have hdigits : (Nat.toDigits 10 n).all Char.isDigit = true :=
    List.all_eq_true.mpr fun _ ↦ isDigit_of_mem_digits
  rw [universeRank?, if_pos hdigits, Nat.ofDigitChars_ten_toDigits]

/-! ### Quoted strings -/

/-- The value of a hexadecimal digit. -/
def hexDigitValue (c : Char) : Nat :=
  if c.isDigit then c.toNat - '0'.toNat else c.toNat - 'a'.toNat + 10

/-- The value of hexadecimal digits. -/
def hexValue (digits : List Char) : Nat :=
  digits.foldl (fun value c ↦ 16 * value + hexDigitValue c) 0

theorem hexDigitValue_digitChar {d : Nat} (h : d < 16) : hexDigitValue d.digitChar = d := by
  have hall : ∀ d < 16, hexDigitValue (Nat.digitChar d) = d := by decide
  exact hall d h

/-- The digits of a number have its value, and none of them is a closing brace. -/
theorem hexValue_toDigits (n : Nat) :
    hexValue (Nat.toDigits 16 n) = n ∧ ∀ c ∈ Nat.toDigits 16 n, (c != '\x7d') = true := by
  have hbrace : ∀ d < 16, (Nat.digitChar d != '\x7d') = true := by decide
  induction n using Nat.strongRecOn with
  | ind n ih =>
    by_cases hn : n < 16
    · rw [Nat.toDigits_of_lt_base hn]
      refine ⟨?_, fun c hc ↦ ?_⟩
      · simp [hexValue, hexDigitValue_digitChar hn]
      · rw [List.mem_singleton.mp hc]
        exact hbrace n hn
    · have hmod : n % 16 < 16 := Nat.mod_lt n (by decide)
      obtain ⟨hvalue, hmem⟩ := ih (n / 16) (by omega)
      rw [Nat.toDigits_of_base_le (by decide) (by omega)]
      refine ⟨?_, fun c hc ↦ ?_⟩
      · rw [hexValue, List.foldl_append, ← hexValue, hvalue]
        simp only [List.foldl_cons, List.foldl_nil, hexDigitValue_digitChar hmod]
        omega
      · rcases List.mem_append.mp hc with hc | hc
        · exact hmem c hc
        · rw [List.mem_singleton.mp hc]
          exact hbrace _ hmod

/-- The character whose escaped form is at the front of a text, and what follows it. -/
def readChar : List Char → Option (Char × List Char)
  | '\\' :: '0' :: text => some ('\x00', text)
  | '\\' :: 't' :: text => some ('\t', text)
  | '\\' :: 'r' :: text => some ('\r', text)
  | '\\' :: 'n' :: text => some ('\n', text)
  | '\\' :: '\\' :: text => some ('\\', text)
  | '\\' :: '"' :: text => some ('"', text)
  | '\\' :: 'u' :: '\x7b' :: text =>
    some (Char.ofNat (hexValue (text.takeWhile (· != '\x7d'))),
      (text.dropWhile (· != '\x7d')).tail)
  | c :: text => some (c, text)
  | [] => none

theorem readChar_of_ne {c : Char} (h : c ≠ '\\') (rest : List Char) :
    readChar (c :: rest) = some (c, rest) := by
  unfold readChar
  split <;> simp_all

theorem readChar_escapeCodePoint (c : Char) (rest : List Char) :
    readChar ((escapeCodePoint c).toList ++ rest) = some (c, rest) := by
  obtain ⟨hvalue, hmem⟩ := hexValue_toDigits c.toNat
  have hbrace : Ends (· != '\x7d') ('\x7d' :: rest) := ends_cons rfl
  have htext : (escapeCodePoint c).toList ++ rest =
      '\\' :: 'u' :: '\x7b' :: (Nat.toDigits 16 c.toNat ++ '\x7d' :: rest) := by
    simp [escapeCodePoint]
  rw [htext, readChar, takeWhile_append hmem hbrace, dropWhile_append hmem hbrace, hvalue,
    Char.ofNat_toNat]
  rfl

theorem readChar_escapeChar (c : Char) (rest : List Char) :
    readChar ((escapeChar c).toList ++ rest) = some (c, rest) := by
  unfold escapeChar
  split_ifs with hzero htab hreturn hnewline hslash hquote hescaped
  · rw [← Char.ofNat_toNat c, hzero]
    rfl
  · rw [htab]
    rfl
  · rw [hreturn]
    rfl
  · rw [hnewline]
    rfl
  · rw [hslash]
    rfl
  · rw [hquote]
    rfl
  · exact readChar_escapeCodePoint c rest
  · rw [Char.toString_eq_singleton, String.toList_singleton]
    exact readChar_of_ne hslash rest

/-- An escaped character does not begin with a quote. -/
theorem escapeChar_append_ne (c : Char) (rest text : List Char) :
    (escapeChar c).toList ++ rest ≠ '"' :: text := by
  unfold escapeChar
  split_ifs with hzero htab hreturn hnewline hslash hquote hescaped
  case neg => simp [Char.toString_eq_singleton, hquote]
  all_goals simp [escapeCodePoint]

/-- The flat text of a string constant. -/
theorem toList_quote (s : String) :
    (quote s).toList = '"' :: (s.toList.flatMap (fun c ↦ (escapeChar c).toList) ++ ['"']) := by
  simp [quote, String.toList_join, List.flatMap_map]

end RankedTT.Text
