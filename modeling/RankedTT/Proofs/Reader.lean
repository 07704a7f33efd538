import RankedTT.Proofs.FlatText
import RankedTT.Proofs.Lexemes
import Mathlib.Logic.Relation

/-!
A machine that reads a printed core term from left to right and keeps on a stack what has been
begun. It goes through the precedences of the printer: once a leaf, a block or a term in parentheses
is read, the projections that follow are taken in, then the operands, then the codomain that follows
an arrow. Every step looks only at what is innermost and at the front of the text.
-/

set_option autoImplicit false
set_option relaxedAutoImplicit false

namespace RankedTT

open Text

namespace Reader

/-! ### The machine -/

/-- What is begun and waits for the term that is being read. -/
inductive Frame where
  | parens
  | operand (operator : Core)
  | body (param : String)
  | domain (name : String)
  | codomain (polarity : Polarity) (domain : Core) (name : String)
  | member (earlier : List Core)
  | declaration (earlier : List (Classified String)) (name : String)

/-- What the reader is about to do: begin a term, go on with a string or with what may follow a term
that it has read, or give a complete term to the innermost frame. -/
inductive Focus where
  | start
  | string (earlier : List Char)
  | projections (t : Core)
  | operands (t : Core)
  | codomain (t : Core)
  | complete (t : Core)

structure State where
  frames : List Frame
  focus : Focus
  text : List Char

/-- The position of a projection, if the text continues with one. -/
def projection? : List Char → Option (Nat × List Char)
  | '.' :: '#' :: text => some (readNumber text)
  | _ => none

/-- Whether an operand is at the front of a text, and not an arrow. -/
def startsOperand : List Char → Bool
  | '-' :: '>' :: _ => false
  | c :: _ => isWordChar c || c == '(' || c == '"' || c == '-'
  | [] => false

/-- The text of an operand, if the text continues with one. -/
def operand? : List Char → Option (List Char)
  | ' ' :: text => if startsOperand text then some text else none
  | _ => none

/-- The connective of a quantifier, if the text continues with one. -/
def connective? : List Char → Option (Polarity × List Char)
  | ' ' :: '-' :: '>' :: ' ' :: text => some (.universal, text)
  | ' ' :: '&' :: ' ' :: text => some (.existential, text)
  | _ => none

/-- Begin to read the type of a declaration. -/
def declare (frames : List Frame) (earlier : List (Classified String)) (text : List Char) :
    Option State :=
  match readWord text with
  | (name, ' ' :: ':' :: ' ' :: text) =>
    some ⟨.declaration earlier (String.ofList name) :: frames, .start, text⟩
  | _ => none

/-- Begin to read a record type or a record. -/
def openBlock (frames : List Frame) (empty : Core) (first : List Char → Option State) :
    List Char → Option State
  | ' ' :: '\x7b' :: '\x7d' :: text => some ⟨frames, .projections empty, text⟩
  | ' ' :: '\x7b' :: ' ' :: text => first text
  | _ => none

/-- Read a word, which may be a keyword, a universe or a variable. -/
def startWord (frames : List Frame) (word text : List Char) : Option State :=
  if word = "struct".toList then
    openBlock frames (.signature .nil) (declare frames []) text
  else if word = "new".toList then
    openBlock frames (.record []) (fun text ↦ some ⟨.member [] :: frames, .start, text⟩) text
  else
    some ⟨frames, .projections ((universeRank? word).elim (.var (String.ofList word)) .univ), text⟩

/-- Begin to read a term. -/
def start (frames : List Frame) : List Char → Option State
  | '(' :: text => some ⟨.parens :: frames, .start, text⟩
  | '\\' :: text =>
    match readWord text with
    | (param, '.' :: ' ' :: text) =>
      some ⟨.body (String.ofList param) :: frames, .start, text⟩
    | _ => none
  | '"' :: text => some ⟨frames, .string [], text⟩
  | '-' :: text =>
    let (n, text) := readNumber text
    some ⟨frames, .projections (.const (.int (-n))), text⟩
  | text =>
    if text.head?.any Char.isDigit then
      let (n, text) := readNumber text
      some ⟨frames, .projections (.const (.int n)), text⟩
    else
      let (word, text) := readWord text
      startWord frames word text

/-- Give a complete term to a frame. -/
def close (t : Core) (frames : List Frame) (text : List Char) : Frame → Option State
  | .parens =>
    match t, text with
    | _, ')' :: text => some ⟨frames, .projections t, text⟩
    | .var name, ' ' :: ':' :: ' ' :: text => some ⟨.domain name :: frames, .start, text⟩
    | _, _ => none
  | .operand _ => none
  | .body param => some ⟨frames, .complete (.lam param none t), text⟩
  | .domain name =>
    match text with
    | ')' :: text =>
      (connective? text).map fun (polarity, text) ↦
        ⟨.codomain polarity t name :: frames, .start, text⟩
    | _ => none
  | .codomain polarity domain name =>
    some ⟨frames, .complete (.quant polarity 0 domain name t), text⟩
  | .member earlier =>
    match text with
    | ';' :: ' ' :: text => some ⟨.member (earlier ++ [t]) :: frames, .start, text⟩
    | ' ' :: '\x7d' :: text => some ⟨frames, .projections (.record (earlier ++ [t])), text⟩
    | _ => none
  | .declaration earlier name =>
    match text with
    | ';' :: ' ' :: text => declare frames (earlier ++ [⟨0, t, name⟩]) text
    | ' ' :: '\x7d' :: text =>
      some ⟨frames, .projections (.signature (.ofList (earlier ++ [⟨0, t, name⟩]))), text⟩
    | _ => none

/-- One step of the reader. -/
def step : State → Option State
  | ⟨frames, .start, text⟩ => start frames text
  | ⟨frames, .string earlier, text⟩ =>
    match text with
    | '"' :: text => some ⟨frames, .projections (.const (.str (String.ofList earlier))), text⟩
    | text => (readChar text).map fun (c, text) ↦ ⟨frames, .string (earlier ++ [c]), text⟩
  | ⟨frames, .projections t, text⟩ =>
    match projection? text, frames with
    | some (index, text), frames => some ⟨frames, .projections (.proj 0 (.univ 0) t index), text⟩
    | none, .operand operator :: frames =>
      some ⟨frames, .operands (.app 0 (.univ 0) operator t), text⟩
    | none, frames => some ⟨frames, .operands t, text⟩
  | ⟨frames, .operands t, text⟩ =>
    match operand? text with
    | some text => some ⟨.operand t :: frames, .start, text⟩
    | none => some ⟨frames, .codomain t, text⟩
  | ⟨frames, .codomain t, text⟩ =>
    match connective? text with
    | some (polarity, text) => some ⟨.codomain polarity t anonymous :: frames, .start, text⟩
    | none => some ⟨frames, .complete t, text⟩
  | ⟨frame :: frames, .complete t, text⟩ => close t frames text frame
  | ⟨[], .complete _, _⟩ => none

/-- Some steps of the reader, one after the other. -/
abbrev Reads : State → State → Prop := Relation.ReflTransGen fun s s' ↦ step s = some s'

/-! ### Runs -/

theorem step_rightUnique : Relator.RightUnique fun s s' : State ↦ step s = some s' :=
  fun _ _ _ h₁ h₂ ↦ Option.some.inj (h₁.symm.trans h₂)

/-- Where the reader has stopped it reads nothing more. -/
theorem eq_of_reads {s s' : State} (h : Reads s s') (hstop : step s = none) :
    s' = s := by
  obtain rfl | ⟨next, hstep, -⟩ := h.cases_head
  · rfl
  · rw [hstop] at hstep
    cases hstep

/-- The reader takes one path, so that it stops in one state only. -/
theorem reads_deterministic {s s₁ s₂ : State} (h₁ : Reads s s₁) (h₂ : Reads s s₂)
    (hstop₁ : step s₁ = none) (hstop₂ : step s₂ = none) : s₁ = s₂ := by
  obtain h | h := Relation.ReflTransGen.total_of_right_unique step_rightUnique h₁ h₂
  · exact (eq_of_reads h hstop₁).symm
  · exact eq_of_reads h hstop₂

/-! ### What follows a term -/

section Ends

variable {rest : List Char}

/-- What may follow an atom. -/
def EndsAtom (rest : List Char) : Prop := ∀ c ∈ rest.head?, c ∈ [' ', ')', ';', '.']

/-- What may follow an operand: there are no projections to come. -/
def EndsOperand (rest : List Char) : Prop := ∀ c ∈ rest.head?, c ∈ [' ', ')', ';']

/-- What may follow a term: no operand and no arrow, but the type of a declared name. -/
inductive EndsTerm : List Char → Prop
  | nil : EndsTerm []
  | closing (text : List Char) : EndsTerm (')' :: text)
  | typed (text : List Char) : EndsTerm (' ' :: ':' :: text)
  | next (text : List Char) : EndsTerm (';' :: text)
  | last (text : List Char) : EndsTerm (' ' :: '\x7d' :: text)

theorem EndsTerm.endsOperand (h : EndsTerm rest) : EndsOperand rest := by
  cases h <;> simp [EndsOperand]

theorem EndsOperand.endsAtom (h : EndsOperand rest) : EndsAtom rest :=
  fun c hc ↦ List.mem_append_left ['.'] (h c hc)

theorem EndsAtom.endsWord (h : EndsAtom rest) : Ends isWordChar rest := by
  intro c hc
  have hall : [' ', ')', ';', '.'].all (fun c ↦ !isWordChar c) = true := by decide
  simpa using List.all_eq_true.mp hall c (h c hc)

theorem EndsAtom.endsNumber (h : EndsAtom rest) : Ends Char.isDigit rest := by
  intro c hc
  have hword : isWordChar c = false := h.endsWord c hc
  refine Bool.eq_false_iff.mpr fun hdigit ↦ ?_
  rw [isWordChar_of_isDigit hdigit] at hword
  cases hword

theorem EndsOperand.projection?_eq_none (h : EndsOperand rest) : projection? rest = none := by
  unfold projection?
  split
  · have hmem := h '.' rfl
    simp at hmem
  · rfl

theorem EndsTerm.operand?_eq_none (h : EndsTerm rest) : operand? rest = none := by
  cases h <;> rfl

theorem EndsTerm.connective?_eq_none (h : EndsTerm rest) : connective? rest = none := by
  cases h <;> rfl

theorem connective?_text (polarity : Polarity) (text : List Char) :
    connective? (polarity.text ++ text) = some (polarity, text) := by
  cases polarity <;> simp [Polarity.text, Polarity.connective, connective?]

theorem endsOperand_text (polarity : Polarity) (text : List Char) :
    EndsOperand (polarity.text ++ text) := by
  simp [EndsOperand, Polarity.text]

theorem operand?_text (polarity : Polarity) (text : List Char) :
    operand? (polarity.text ++ text) = none := by
  cases polarity <;> simp [Polarity.text, Polarity.connective, operand?, startsOperand] <;> decide

end Ends

/-! ### Steps -/

section Steps

variable {frames : List Frame} {t : Core} {rest : List Char}

/-- The innermost frame does not wait for an operand. -/
def AwaitsTerm (frames : List Frame) : Prop := ∀ operator, frames.head? ≠ some (.operand operator)

theorem reads_projection (index : Nat) (h : EndsAtom rest) :
    Reads ⟨frames, .projections t, '.' :: '#' :: (Nat.toDigits 10 index ++ rest)⟩
      ⟨frames, .projections (.proj 0 (.univ 0) t index), rest⟩ := by
  refine .single ?_
  simp only [step, projection?, readNumber_append index h.endsNumber]

theorem reads_operands (hframes : AwaitsTerm frames) (h : EndsOperand rest) :
    Reads ⟨frames, .projections t, rest⟩ ⟨frames, .operands t, rest⟩ := by
  refine .single ?_
  simp only [step, h.projection?_eq_none]
  cases frames with
  | nil => rfl
  | cons frame frames =>
    cases frame with
    | operand operator => exact absurd rfl (hframes operator)
    | _ => rfl

theorem reads_application (operator : Core) (h : EndsOperand rest) :
    Reads ⟨.operand operator :: frames, .projections t, rest⟩
      ⟨frames, .operands (.app 0 (.univ 0) operator t), rest⟩ := by
  refine .single ?_
  simp only [step, h.projection?_eq_none]

theorem reads_operand (h : startsOperand rest = true) :
    Reads ⟨frames, .operands t, ' ' :: rest⟩ ⟨.operand t :: frames, .start, rest⟩ := by
  refine .single ?_
  rw [step, operand?, if_pos h]

/-- Without an operand and an arrow the term is complete. -/
theorem reads_complete (h : EndsTerm rest) :
    Reads ⟨frames, .operands t, rest⟩ ⟨frames, .complete t, rest⟩ := by
  refine .head (b := ⟨frames, .codomain t, rest⟩) ?_ (.single ?_)
  · rw [step, h.operand?_eq_none]
  · rw [step, h.connective?_eq_none]

theorem reads_arrow (polarity : Polarity) (text : List Char) :
    Reads ⟨frames, .operands t, polarity.text ++ text⟩
      ⟨.codomain polarity t anonymous :: frames, .start, text⟩ := by
  refine .head (b := ⟨frames, .codomain t, polarity.text ++ text⟩) ?_ (.single ?_)
  · rw [step, operand?_text]
  · rw [step, connective?_text]

theorem reads_open (text : List Char) :
    Reads ⟨frames, .start, Doc.inParens text ++ rest⟩
      ⟨.parens :: frames, .start, text ++ ')' :: rest⟩ := by
  refine .single ?_
  simp [step, start, Doc.inParens]

theorem reads_close : Reads ⟨.parens :: frames, .complete t, ')' :: rest⟩
    ⟨frames, .projections t, rest⟩ := by
  refine .single ?_
  simp only [step, close]

theorem reads_domain (name : String) :
    Reads ⟨.parens :: frames, .complete (.var name), ' ' :: ':' :: ' ' :: rest⟩
      ⟨.domain name :: frames, .start, rest⟩ := by
  refine .single ?_
  simp only [step, close]

theorem reads_codomain (polarity : Polarity) (name : String) :
    Reads ⟨.domain name :: frames, .complete t, ')' :: (polarity.text ++ rest)⟩
      ⟨.codomain polarity t name :: frames, .start, rest⟩ := by
  refine .single ?_
  simp only [step, close, connective?_text, Option.map_some]

theorem reads_quant (polarity : Polarity) (domain : Core) (name : String) :
    Reads ⟨.codomain polarity domain name :: frames, .complete t, rest⟩
      ⟨frames, .complete (.quant polarity 0 domain name t), rest⟩ :=
  .single rfl

theorem reads_body {param : String} (hparam : ∀ c ∈ param.toList, isWordChar c = true) :
    Reads ⟨frames, .start, '\\' :: param.toList ++ '.' :: ' ' :: rest⟩
      ⟨.body param :: frames, .start, rest⟩ := by
  have hdot : Ends isWordChar ('.' :: ' ' :: rest) := ends_cons (by decide)
  refine .single ?_
  simp only [step, start, List.cons_append, readWord_append hparam hdot, String.ofList_toList]

theorem reads_lam (param : String) :
    Reads ⟨.body param :: frames, .complete t, rest⟩
      ⟨frames, .complete (.lam param none t), rest⟩ :=
  .single rfl

/-- What begins with neither of the four characters begins with a number or a word. -/
theorem start_cons {c : Char} (hc : c ∉ ['(', '\\', '"', '-']) (text : List Char) :
    start frames (c :: text) =
      if c.isDigit then
        some ⟨frames, .projections (.const (.int (readNumber (c :: text)).1)),
          (readNumber (c :: text)).2⟩
      else startWord frames (readWord (c :: text)).1 (readWord (c :: text)).2 := by
  simp only [List.mem_cons, List.not_mem_nil, or_false, not_or] at hc
  obtain ⟨hparen, hslash, hquote, hminus⟩ := hc
  rw [start]
  · rfl
  · exact fun _ h ↦ hparen (List.cons.inj h).1
  · exact fun _ h ↦ hslash (List.cons.inj h).1
  · exact fun _ h ↦ hquote (List.cons.inj h).1
  · exact fun _ h ↦ hminus (List.cons.inj h).1

theorem not_mem_of_isWordChar {c : Char} (h : isWordChar c = true) :
    c ∉ ['(', '\\', '"', '-'] := by
  have hall : ['(', '\\', '"', '-'].all (fun c ↦ !isWordChar c) = true := by decide
  intro hc
  have hnot : (!isWordChar c) = true := List.all_eq_true.mp hall c hc
  rw [h] at hnot
  cases hnot

/-- A text that begins with a word. -/
theorem start_word {word : List Char} (hword : ∀ c ∈ word, isWordChar c = true)
    (hhead : word.head?.any (fun c ↦ !c.isDigit) = true) (h : EndsAtom rest) :
    start frames (word ++ rest) = startWord frames word rest := by
  have hread : readWord (word ++ rest) = (word, rest) := readWord_append hword h.endsWord
  cases word with
  | nil => cases hhead
  | cons c word =>
    have hc : isWordChar c = true := hword c List.mem_cons_self
    have hdigit : c.isDigit = false := by simpa using hhead
    rw [List.cons_append] at hread ⊢
    rw [start_cons (not_mem_of_isWordChar hc), hdigit, hread]
    rfl

/-- A text that begins with a number. -/
theorem start_number (n : Nat) (h : EndsAtom rest) :
    start frames (Nat.toDigits 10 n ++ rest) =
      some ⟨frames, .projections (.const (.int n)), rest⟩ := by
  have hread : readNumber (Nat.toDigits 10 n ++ rest) = (n, rest) :=
    readNumber_append n h.endsNumber
  obtain ⟨c, digits, hdigits, hc⟩ := exists_toDigits_eq_cons n
  rw [hdigits, List.cons_append] at hread ⊢
  rw [start_cons (not_mem_of_isWordChar (isWordChar_of_isDigit hc)), if_pos hc, hread]

/-- The characters of a string are read one by one. -/
theorem reads_escaped (earlier cs : List Char) :
    Reads ⟨frames, .string earlier, cs.flatMap (fun c ↦ (escapeChar c).toList) ++ '"' :: rest⟩
      ⟨frames, .projections (.const (.str (String.ofList (earlier ++ cs)))), rest⟩ := by
  induction cs generalizing earlier with
  | nil =>
    refine .single ?_
    simp only [List.flatMap_nil, List.nil_append, step, List.append_nil]
  | cons c cs ih =>
    have hcons : earlier ++ c :: cs = earlier ++ [c] ++ cs := List.append_cons _ _ _
    rw [List.flatMap_cons, List.append_assoc, hcons]
    refine .head ?_ (ih (earlier ++ [c]))
    rw [step]
    · rw [readChar_escapeChar, Option.map_some]
    · exact escapeChar_append_ne c _

end Steps

end Reader

end RankedTT
