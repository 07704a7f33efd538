import RankedTT.Core.Printer

/-!
The text of a document on one line: its texts one after the other, with a space for each line. A
layout in which no line is broken is this text, at whatever width it was made; and the flat text of
a core term is put together from those of its parts.
-/

set_option autoImplicit false
set_option relaxedAutoImplicit false

namespace RankedTT

/-! ### Layouts without a newline -/

namespace Doc

/-- The document on one line. -/
def flat : Doc → List Char
  | .nil => []
  | .text _ content => content.toList
  | .line => [' ']
  | .append first second => first.flat ++ second.flat
  | .nest _ body => body.flat
  | .group body => body.flat

/-- The text of the output so far. -/
def Output.text (out : Output) : List Char :=
  out.spans.reverse.flatMap fun span ↦ span.content.toList

theorem Output.text_write (out : Output) (style : Style) (content : String) :
    (out.write style content).text = out.text ++ content.toList := by
  simp [Output.text, Output.write]

theorem Output.newline_mem_text_newline (out : Output) (indentation : Nat) :
    ∃ added, (out.newline indentation).text = out.text ++ added ∧ '\n' ∈ added := by
  refine ⟨'\n' :: List.replicate indentation ' ', ?_, List.mem_cons_self⟩
  simp [Output.text, Output.newline]

/-- A layout adds the flat text to the output, unless it adds a newline. -/
theorem exists_text_layout (width : Nat) (flat : Bool) (indentation : Nat) (rest : Nat → Bool)
    (doc : Doc) (out : Output) :
    ∃ added, (doc.layout width flat indentation rest out).text = out.text ++ added ∧
      ('\n' ∉ added → added = doc.flat) := by
  induction doc generalizing flat indentation rest out with
  | nil => exact ⟨[], (List.append_nil _).symm, fun _ ↦ rfl⟩
  | text style content => exact ⟨_, out.text_write style content, fun _ ↦ rfl⟩
  | line =>
    cases flat with
    | true => exact ⟨_, out.text_write .plain " ", fun _ ↦ rfl⟩
    | false =>
      obtain ⟨added, htext, hmem⟩ := out.newline_mem_text_newline indentation
      exact ⟨added, htext, fun h ↦ absurd hmem h⟩
  | append first second ihfirst ihsecond =>
    obtain ⟨before, hbefore, hfirst⟩ :=
      ihfirst flat indentation (second.fits width false rest) out
    obtain ⟨after, hafter, hsecond⟩ := ihsecond flat indentation rest
      (first.layout width flat indentation (second.fits width false rest) out)
    refine ⟨before ++ after, ?_, fun h ↦ ?_⟩
    · rw [← List.append_assoc, ← hbefore]
      exact hafter
    · rw [List.mem_append, not_or] at h
      rw [Doc.flat, hfirst h.1, hsecond h.2]
  | nest _ body ih => exact ih _ _ _ _
  | group body ih => exact ih _ _ _ _

/-- A document that is laid out without a newline is laid out on one line. -/
theorem render_eq_flat {width : Nat} {doc : Doc} (h : '\n' ∉ (doc.render width).toList) :
    (doc.render width).toList = doc.flat := by
  obtain ⟨added, htext, hflat⟩ := doc.exists_text_layout width false 0 (fun _ ↦ true) ⟨[], 0⟩
  have hrender : (doc.render width).toList = added := by
    rw [render, String.toList_join, List.flatMap_map]
    exact htext
  rw [hrender] at h ⊢
  exact hflat h

section Flat

variable (first second body : Doc) (content : String)

@[simp]
theorem flat_append : (first ++ second).flat = first.flat ++ second.flat := rfl

@[simp]
theorem flat_word : (word content).flat = content.toList := rfl

@[simp]
theorem flat_keyword : (keyword content).flat = content.toList := rfl

@[simp]
theorem flat_member : (member content).flat = content.toList := rfl

@[simp]
theorem flat_literal : (literal content).flat = content.toList := rfl

@[simp]
theorem flat_line : line.flat = [' '] := rfl

@[simp]
theorem flat_space : space.flat = [' '] := rfl

@[simp]
theorem flat_nest (amount : Int) : (nest amount body).flat = body.flat := rfl

@[simp]
theorem flat_group : (group body).flat = body.flat := rfl

/-- A text in parentheses. -/
def inParens (text : List Char) : List Char := '(' :: text ++ [')']

@[simp]
theorem flat_parens : body.parens.flat = inParens body.flat := rfl

@[simp]
theorem flat_parensIf (condition : Bool) :
    (parensIf condition body).flat = if condition then inParens body.flat else body.flat := by
  cases condition <;> rfl

/-- The items of a block that has some, up to the closing brace. -/
def items : List (List Char) → List Char
  | [] => [' ', '\x7d']
  | [item] => item ++ [' ', '\x7d']
  | item :: rest => item ++ ';' :: ' ' :: items rest

theorem flat_separated (docs : List Doc) :
    (separated ";" docs).flat ++ [' ', '\x7d'] = items (docs.map flat) := by
  unfold separated
  induction docs with
  | nil => rfl
  | cons doc docs ih =>
    cases docs with
    | nil => rfl
    | cons doc' docs =>
      have hcons : (intersperse (word ";" ++ line) (doc :: doc' :: docs)).flat =
          doc.flat ++ ';' :: ' ' :: (intersperse (word ";" ++ line) (doc' :: docs)).flat := by
        rw [intersperse] <;> simp
      rw [hcons, List.append_assoc, List.cons_append, List.cons_append, ih]
      rfl

@[simp]
theorem flat_block_nil (indent : Int) : (block indent []).flat = ['\x7b', '\x7d'] := rfl

@[simp]
theorem flat_block_cons (indent : Int) (doc : Doc) (docs : List Doc) :
    (block indent (doc :: docs)).flat =
      '\x7b' :: ' ' :: items (doc.flat :: docs.map flat) := by
  rw [← List.map_cons, ← flat_separated]
  simp [block, braces]

end Flat

end Doc

/-! ### Core terms on one line -/

/-- The standard options at some width. -/
def PrintConfig.ofWidth (width : Nat) : PrintConfig := { PrintConfig.standard with width := width }

section Core

variable (width : Nat) (prec : Precedence)

/-- A core term on one line, as it stands in a context of the given precedence. -/
def Core.flat (t : Core) : List Char := (t.doc (.ofWidth width) prec).flat

/-- The declarations of a record type, each on one line. -/
def Telescope.flats (members : Telescope) : List (List Char) :=
  (members.docs (.ofWidth width)).map Doc.flat

/-- The members of a record, each on one line. -/
def Core.flats (members : List Core) : List (List Char) :=
  (Core.memberDocs (.ofWidth width) members).map Doc.flat

/-- `name : type` -/
def declarationText (name : String) (type : List Char) : List Char :=
  name.toList ++ ' ' :: ':' :: ' ' :: type

/-- What stands between the domain and the codomain of a quantifier. -/
def Polarity.text (polarity : Polarity) : List Char :=
  ' ' :: polarity.connective.toList ++ [' ']

theorem declarationDoc_flat (name : String) (type : Doc) :
    (declarationDoc name type).flat = declarationText name type.flat := by
  simp [declarationDoc, declarationText]

/-- A term that is put in parentheses if the context binds more tightly. -/
def parenthesized (condition : Bool) (text : List Char) : List Char :=
  if condition then Doc.inParens text else text

namespace Core

variable {width prec}

theorem flat_univ (rank : Nat) :
    (univ rank).flat width prec = (if rank = 0 then "Type" else universeName rank).toList := by
  simp [flat, doc, universeDoc, PrintConfig.ofWidth, PrintConfig.standard]

/-- A quantifier is printed with its name if the name occurs in its codomain. -/
theorem flat_quant (polarity : Polarity) (rank : Nat) (domain codomain : Core) (name : String) :
    (quant polarity rank domain name codomain).flat width prec =
      parenthesized (prec > .binder)
        ((if name ≠ anonymous ∧ codomain.occursFree name then
          Doc.inParens (declarationText name (domain.flat width .binder))
        else domain.flat width .arrowLeft) ++ polarity.text ++ codomain.flat width .binder) := by
  by_cases h : name ≠ anonymous ∧ codomain.occursFree name <;>
    simp [flat, doc, PrintConfig.ofWidth, PrintConfig.standard, h, parenthesized,
      declarationDoc_flat, Polarity.text]

theorem flat_signature_nil :
    (signature .nil).flat width prec = "struct ".toList ++ ['\x7b', '\x7d'] := rfl

theorem flat_signature_cons (rank : Nat) (type : Core) (name : String) (rest : Telescope) :
    (signature (.cons rank type name rest)).flat width prec =
      "struct ".toList ++ '\x7b' :: ' ' ::
        Doc.items ((Telescope.cons rank type name rest).flats width) := by
  simp [flat, doc, Telescope.flats, Telescope.docs]

theorem flat_lam (param : String) (stamp : Stamp) (body : Core) :
    (lam param stamp body).flat width prec =
      parenthesized (prec > .binder)
        ('\\' :: param.toList ++ '.' :: ' ' :: body.flat width .binder) := by
  simp [flat, doc, parenthesized]

theorem flat_record_nil : (record []).flat width prec = "new ".toList ++ ['\x7b', '\x7d'] := rfl

theorem flat_record_cons (m : Core) (ms : List Core) :
    (record (m :: ms)).flat width prec =
      "new ".toList ++ '\x7b' :: ' ' :: Doc.items (Core.flats width (m :: ms)) := by
  simp [flat, doc, Core.flats, Core.memberDocs]

theorem flat_app (rank : Nat) (type operator operand : Core) :
    (app rank type operator operand).flat width prec =
      parenthesized (prec > .operator)
        (operator.flat width .operator ++ ' ' :: operand.flat width .atom) := by
  simp [flat, doc, parenthesized]

theorem flat_proj (rank : Nat) (type operator : Core) (index : Nat) :
    (proj rank type operator index).flat width prec =
      operator.flat width .atom ++ '.' :: '#' :: Nat.toDigits 10 index := by
  simp [flat, doc]

theorem flat_var (name : String) : (var name).flat width prec = name.toList := rfl

theorem flat_int (n : Int) : (const (.int n)).flat width prec = (toString n).toList := rfl

theorem flat_str (s : String) : (const (.str s)).flat width prec = (Text.quote s).toList := rfl

end Core

@[simp]
theorem Telescope.flats_nil : Telescope.nil.flats width = [] := rfl

@[simp]
theorem Telescope.flats_cons (rank : Nat) (type : Core) (name : String) (rest : Telescope) :
    (cons rank type name rest).flats width =
      declarationText name (type.flat width .binder) :: rest.flats width := by
  simp [flats, docs, declarationDoc_flat, Core.flat]

@[simp]
theorem Core.flats_nil : Core.flats width [] = [] := rfl

@[simp]
theorem Core.flats_cons (m : Core) (ms : List Core) :
    Core.flats width (m :: ms) = m.flat width .binder :: Core.flats width ms := rfl

end Core

end RankedTT
