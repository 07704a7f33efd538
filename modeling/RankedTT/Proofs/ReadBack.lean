import RankedTT.Proofs.Reader

/-!
Core terms can be read back from their printed form. What is read is the term without what the
printer leaves out, so that terms with the same printed form differ in nothing else.
-/

set_option autoImplicit false
set_option relaxedAutoImplicit false

namespace RankedTT

open Text Reader

/-! ### What is printed -/

mutual

/-- The term without what the printer leaves out: the ranks of binders and members, the types
recorded on operators, stamps, and the names of quantifiers that do not occur in their codomain. -/
def Core.visible : Core → Core
  | .univ rank => .univ rank
  | .quant polarity _ domain name codomain =>
    .quant polarity 0 domain.visible (if codomain.occursFree name then name else anonymous)
      codomain.visible
  | .signature members => .signature members.visible
  | .lam param _ body => .lam param none body.visible
  | .record members => .record (Core.visibleMembers members)
  | .app _ _ operator operand => .app 0 (.univ 0) operator.visible operand.visible
  | .proj _ _ operator index => .proj 0 (.univ 0) operator.visible index
  | .var name => .var name
  | .const value => .const value

def Telescope.visible : Telescope → Telescope
  | .nil => .nil
  | .cons _ type name rest => .cons 0 type.visible name rest.visible

def Core.visibleMembers : List Core → List Core
  | [] => []
  | m :: ms => m.visible :: Core.visibleMembers ms

end

/-- A word that the printer writes for nothing else: it has no punctuation, does not begin with a
digit, and is neither a keyword nor a universe. -/
def isOrdinaryWord (word : String) : Bool :=
  word.toList.all isWordChar && word.toList.head?.any (fun c ↦ !c.isDigit) &&
    word.toList != "struct".toList && word.toList != "new".toList &&
    (universeRank? word.toList).isNone

mutual

/-- All names that are printed are ordinary words, apart from anonymous quantifiers, and all
constants are integers and strings. -/
def Core.isOrdinary : Core → Bool
  | .univ _ => true
  | .quant _ _ domain name codomain =>
    domain.isOrdinary && (name == anonymous || isOrdinaryWord name) && codomain.isOrdinary
  | .signature members => members.isOrdinary
  | .lam param _ body => isOrdinaryWord param && body.isOrdinary
  | .record members => Core.areOrdinary members
  | .app _ _ operator operand => operator.isOrdinary && operand.isOrdinary
  | .proj _ _ operator _ => operator.isOrdinary
  | .var name => isOrdinaryWord name
  | .const (.int _) | .const (.str _) => true
  | .const _ => false

def Telescope.isOrdinary : Telescope → Bool
  | .nil => true
  | .cons _ type name rest => type.isOrdinary && isOrdinaryWord name && rest.isOrdinary

def Core.areOrdinary : List Core → Bool
  | [] => true
  | m :: ms => m.isOrdinary && Core.areOrdinary ms

end

/-! ### Reading a term -/

variable {width : Nat}

/-- Wherever a term stands, the reader takes off its printed form. -/
structure Core.ReadsBack (width : Nat) (t : Core) : Prop where
  atom : ∀ frames rest, EndsAtom rest →
    Reads ⟨frames, .start, t.flat width .atom ++ rest⟩ ⟨frames, .projections t.visible, rest⟩
  operation : ∀ frames rest, AwaitsTerm frames → EndsOperand rest →
    Reads ⟨frames, .start, t.flat width .operator ++ rest⟩ ⟨frames, .operands t.visible, rest⟩
  term : ∀ frames rest, AwaitsTerm frames → EndsTerm rest →
    Reads ⟨frames, .start, t.flat width .binder ++ rest⟩ ⟨frames, .complete t.visible, rest⟩

namespace Core.ReadsBack

variable {t : Core}

/-- A term that never needs parentheses. -/
theorem of_atom (hflat : ∀ prec, t.flat width prec = t.flat width .atom)
    (h : ∀ frames rest, EndsAtom rest →
      Reads ⟨frames, .start, t.flat width .atom ++ rest⟩ ⟨frames, .projections t.visible, rest⟩) :
    t.ReadsBack width where
  atom := h
  operation frames rest hframes hrest := by
    rw [hflat]
    exact (h frames rest hrest.endsAtom).trans (reads_operands hframes hrest)
  term frames rest hframes hrest := by
    rw [hflat]
    have hoperand := hrest.endsOperand
    exact ((h frames rest hoperand.endsAtom).trans (reads_operands hframes hoperand)).trans
      (reads_complete hrest)

/-- In parentheses a term is read as it is read alone. -/
theorem reads_inParens (h : ∀ frames rest, AwaitsTerm frames → EndsTerm rest →
      Reads ⟨frames, .start, t.flat width .binder ++ rest⟩ ⟨frames, .complete t.visible, rest⟩)
    (frames : List Frame) (rest : List Char) :
    Reads ⟨frames, .start, Doc.inParens (t.flat width .binder) ++ rest⟩
      ⟨frames, .projections t.visible, rest⟩ := by
  have hframes : AwaitsTerm (.parens :: frames) := by simp [AwaitsTerm]
  exact ((reads_open _).trans (h _ _ hframes (.closing rest))).trans reads_close

/-- A term that is put in parentheses as the operator or the operand of another one. -/
theorem of_term (hoperator : t.flat width .operator = Doc.inParens (t.flat width .binder))
    (hatom : t.flat width .atom = Doc.inParens (t.flat width .binder))
    (h : ∀ frames rest, AwaitsTerm frames → EndsTerm rest →
      Reads ⟨frames, .start, t.flat width .binder ++ rest⟩ ⟨frames, .complete t.visible, rest⟩) :
    t.ReadsBack width where
  atom frames rest _ := by
    rw [hatom]
    exact reads_inParens h frames rest
  operation frames rest hframes hrest := by
    rw [hoperator]
    exact (reads_inParens h frames rest).trans (reads_operands hframes hrest)
  term := h

/-- A term that is put in parentheses as an operand only. -/
theorem of_operation (hterm : t.flat width .binder = t.flat width .operator)
    (hatom : t.flat width .atom = Doc.inParens (t.flat width .binder))
    (h : ∀ frames rest, AwaitsTerm frames → EndsOperand rest →
      Reads ⟨frames, .start, t.flat width .operator ++ rest⟩
        ⟨frames, .operands t.visible, rest⟩) :
    t.ReadsBack width := by
  have hcomplete (frames : List Frame) (rest : List Char) (hframes : AwaitsTerm frames)
      (hrest : EndsTerm rest) : Reads ⟨frames, .start, t.flat width .binder ++ rest⟩
        ⟨frames, .complete t.visible, rest⟩ := by
    rw [hterm]
    exact (h frames rest hframes hrest.endsOperand).trans (reads_complete hrest)
  refine ⟨fun frames rest _ ↦ ?_, h, hcomplete⟩
  rw [hatom]
  exact reads_inParens hcomplete frames rest

end Core.ReadsBack

/-! ### Every form of terms -/

section Forms

variable {frames : List Frame} {rest : List Char}

theorem isWordChar_of_isOrdinaryWord {word : String} (h : isOrdinaryWord word = true) :
    ∀ c ∈ word.toList, isWordChar c = true := by
  simp only [isOrdinaryWord, Bool.and_eq_true] at h
  exact List.all_eq_true.mp h.1.1.1.1

/-- An ordinary word is read as a variable. -/
theorem start_ordinaryWord {word : String} (h : isOrdinaryWord word = true)
    (hrest : EndsAtom rest) :
    start frames (word.toList ++ rest) = some ⟨frames, .projections (.var word), rest⟩ := by
  simp only [isOrdinaryWord, Bool.and_eq_true, List.all_eq_true, bne_iff_ne,
    Option.isNone_iff_eq_none] at h
  obtain ⟨⟨⟨⟨hword, hhead⟩, hstruct⟩, hnew⟩, hrank⟩ := h
  rw [start_word hword hhead hrest, startWord, if_neg hstruct, if_neg hnew, hrank,
    Option.elim_none, String.ofList_toList]

theorem Core.readsBack_var {name : String} (h : isOrdinaryWord name = true) :
    (Core.var name).ReadsBack width :=
  .of_atom (fun _ ↦ rfl) fun _ _ hrest ↦ .single (start_ordinaryWord h hrest)

/-- The digits of a universe. -/
theorem Core.exists_flat_univ (width : Nat) (prec : Precedence) (rank : Nat) :
    ∃ digits, (Core.univ rank).flat width prec = 'T' :: 'y' :: 'p' :: 'e' :: digits ∧
      (∀ c ∈ digits, c.isDigit = true) ∧
      universeRank? ('T' :: 'y' :: 'p' :: 'e' :: digits) = some rank := by
  rw [Core.flat_univ]
  split
  case isTrue h =>
    subst h
    exact ⟨[], by simp, by simp, rfl⟩
  case isFalse h =>
    refine ⟨Nat.toDigits 10 rank, ?_, fun _ ↦ isDigit_of_mem_digits, universeRank?_digits rank⟩
    simp [universeName]

theorem Core.readsBack_univ (rank : Nat) : (Core.univ rank).ReadsBack width := by
  refine .of_atom (fun _ ↦ rfl) fun frames rest hrest ↦ .single ?_
  obtain ⟨digits, hflat, hdigits, hrank⟩ := Core.exists_flat_univ width .atom rank
  have htype : ['T', 'y', 'p', 'e'].all isWordChar = true := by decide
  have hword : ∀ c ∈ ['T', 'y', 'p', 'e'] ++ digits, isWordChar c = true :=
    List.forall_mem_append.mpr
      ⟨List.all_eq_true.mp htype, fun c hc ↦ isWordChar_of_isDigit (hdigits c hc)⟩
  have hstart : start frames ('T' :: 'y' :: 'p' :: 'e' :: digits ++ rest) =
      startWord frames ('T' :: 'y' :: 'p' :: 'e' :: digits) rest := start_word hword rfl hrest
  rw [hflat, step, hstart, startWord, if_neg (by simp), if_neg (by simp), hrank]
  rfl

theorem Core.flat_ofNat (prec : Precedence) (n : Nat) :
    (Core.const (.int (.ofNat n))).flat width prec = Nat.toDigits 10 n := by
  rw [Core.flat_int]
  simp [Int.toString_eq_repr, Int.repr]

theorem Core.flat_negSucc (prec : Precedence) (n : Nat) :
    (Core.const (.int (.negSucc n))).flat width prec = '-' :: Nat.toDigits 10 (n + 1) := by
  rw [Core.flat_int]
  simp [Int.toString_eq_repr, Int.repr]

theorem Core.readsBack_int (n : Int) : (Core.const (.int n)).ReadsBack width := by
  refine .of_atom (fun _ ↦ rfl) fun frames rest hrest ↦ .single ?_
  cases n with
  | ofNat n =>
    rw [Core.flat_ofNat]
    exact start_number n hrest
  | negSucc n =>
    rw [Core.flat_negSucc, List.cons_append, step, start, readNumber_append _ hrest.endsNumber]
    rfl

theorem Core.readsBack_str (s : String) : (Core.const (.str s)).ReadsBack width := by
  refine .of_atom (fun _ ↦ rfl) fun frames rest _ ↦ ?_
  have hopen : step ⟨frames, .start, (Core.const (.str s)).flat width .atom ++ rest⟩ =
      some ⟨frames, .string [],
        s.toList.flatMap (fun c ↦ (escapeChar c).toList) ++ '"' :: rest⟩ := by
    rw [Core.flat_str, toList_quote]
    simp [step, start]
  have hescaped : Reads _ ⟨frames, .projections (.const (.str (String.ofList s.toList))), rest⟩ :=
    reads_escaped [] s.toList
  rw [String.ofList_toList] at hescaped
  exact .head hopen hescaped

theorem Core.readsBack_lam {param : String} {stamp : Stamp} {body : Core}
    (hparam : isOrdinaryWord param = true) (hbody : body.ReadsBack width) :
    (Core.lam param stamp body).ReadsBack width := by
  refine .of_term rfl rfl fun frames rest hframes hrest ↦ ?_
  have htext : (Core.lam param stamp body).flat width .binder ++ rest =
      '\\' :: param.toList ++ '.' :: ' ' :: (body.flat width .binder ++ rest) := by
    simp [Core.flat_lam, parenthesized]
  have hbegin : AwaitsTerm (.body param :: frames) := by simp [AwaitsTerm]
  rw [htext]
  exact ((reads_body (isWordChar_of_isOrdinaryWord hparam)).trans
    (hbody.term _ _ hbegin hrest)).trans (reads_lam param)

theorem Core.flat_arrowLeft (t : Core) : t.flat width .arrowLeft = t.flat width .operator := by
  cases t <;> rfl

/-- The domain of a quantifier is read up to where its codomain begins. -/
theorem Core.reads_domain {polarity : Polarity} {domain codomain : Core} {name : String}
    (hname : name = anonymous ∨ isOrdinaryWord name = true) (hdomain : domain.ReadsBack width)
    (hframes : AwaitsTerm frames) :
    Reads
      ⟨frames, .start, (if name ≠ anonymous ∧ codomain.occursFree name then
          Doc.inParens (declarationText name (domain.flat width .binder))
        else domain.flat width .arrowLeft) ++ (polarity.text ++ rest)⟩
      ⟨.codomain polarity domain.visible
        (if codomain.occursFree name then name else anonymous) :: frames, .start, rest⟩ := by
  split
  case isTrue h =>
    have hword : isOrdinaryWord name = true := hname.resolve_left h.1
    have hparens : AwaitsTerm (.parens :: frames) := by simp [AwaitsTerm]
    have hinner : AwaitsTerm (.domain name :: frames) := by simp [AwaitsTerm]
    have hvar : (Core.var name).ReadsBack width := Core.readsBack_var hword
    rw [if_pos h.2]
    refine (reads_open _).trans ?_
    rw [declarationText, List.append_assoc, List.cons_append, List.cons_append, List.cons_append]
    refine (hvar.term _ _ hparens (.typed _)).trans ?_
    refine (Reader.reads_domain name).trans ?_
    exact (hdomain.term _ _ hinner (.closing _)).trans (reads_codomain polarity name)
  case isFalse h =>
    have hanonymous : (if codomain.occursFree name then name else anonymous) = anonymous := by
      split
      case isTrue hoccurs => exact Classical.byContradiction fun hne ↦ h ⟨hne, hoccurs⟩
      case isFalse => rfl
    rw [hanonymous, Core.flat_arrowLeft]
    exact (hdomain.operation _ _ hframes (endsOperand_text _ _)).trans (reads_arrow _ _)

theorem Core.readsBack_quant {polarity : Polarity} {rank : Nat} {domain codomain : Core}
    {name : String} (hname : name = anonymous ∨ isOrdinaryWord name = true)
    (hdomain : domain.ReadsBack width) (hcodomain : codomain.ReadsBack width) :
    (Core.quant polarity rank domain name codomain).ReadsBack width := by
  have hparens (prec : Precedence) (h : prec > .binder) :
      (Core.quant polarity rank domain name codomain).flat width prec =
        Doc.inParens ((Core.quant polarity rank domain name codomain).flat width .binder) := by
    rw [Core.flat_quant, Core.flat_quant, parenthesized, parenthesized, if_pos (by simpa using h)]
    rfl
  refine .of_term (hparens _ (by decide)) (hparens _ (by decide)) fun frames rest hframes hrest ↦ ?_
  have hinner (name : String) : AwaitsTerm (.codomain polarity domain.visible name :: frames) := by
    simp [AwaitsTerm]
  rw [Core.flat_quant, parenthesized, if_neg (by decide), List.append_assoc, List.append_assoc]
  refine (Core.reads_domain hname hdomain hframes).trans ?_
  exact (hcodomain.term _ _ (hinner _) hrest).trans (reads_quant polarity _ _)

theorem Core.readsBack_proj {rank index : Nat} {type operator : Core}
    (hoperator : operator.ReadsBack width) :
    (Core.proj rank type operator index).ReadsBack width := by
  refine .of_atom (fun _ ↦ rfl) fun frames rest hrest ↦ ?_
  rw [Core.flat_proj, List.append_assoc]
  have hdot : EndsAtom ('.' :: '#' :: (Nat.toDigits 10 index ++ rest)) := by simp [EndsAtom]
  exact (hoperator.atom _ _ hdot).trans (reads_projection index hrest)

theorem startsOperand_cons {c : Char} (h : isWordChar c = true ∨ c = '(' ∨ c = '"')
    (text : List Char) : startsOperand (c :: text) = true := by
  have hminus : c ≠ '-' := by
    rintro rfl
    rcases h with h | h | h <;> revert h <;> decide
  rw [startsOperand]
  · rcases h with h | rfl | rfl
    · simp [h]
    · rfl
    · rfl
  · exact fun _ heq ↦ absurd heq hminus

theorem startsOperand_ordinaryWord {word : String} (h : isOrdinaryWord word = true)
    (text : List Char) : startsOperand (word.toList ++ text) = true := by
  have hword := isWordChar_of_isOrdinaryWord h
  simp only [isOrdinaryWord, Bool.and_eq_true] at h
  cases hchars : word.toList with
  | nil => simp [hchars] at h
  | cons c chars =>
    rw [hchars] at hword
    exact startsOperand_cons (.inl (hword c List.mem_cons_self)) _

theorem startsOperand_int (n : Int) (text : List Char) :
    startsOperand ((Core.const (.int n)).flat width .atom ++ text) = true := by
  cases n with
  | ofNat n =>
    obtain ⟨c, digits, hdigits, hc⟩ := exists_toDigits_eq_cons n
    rw [Core.flat_ofNat, hdigits]
    exact startsOperand_cons (.inl (isWordChar_of_isDigit hc)) _
  | negSucc n =>
    obtain ⟨c, digits, hdigits, hc⟩ := exists_toDigits_eq_cons (n + 1)
    have harrow : c ≠ '>' := by
      rintro rfl
      cases hc
    rw [Core.flat_negSucc, hdigits, List.cons_append, List.cons_append, startsOperand]
    · rfl
    · exact fun _ _ h ↦ harrow (List.cons.inj h).1

/-- A term that is printed as an operand begins like one. -/
theorem Core.startsOperand_flat : (t : Core) → t.isOrdinary = true → (rest : List Char) →
    startsOperand (t.flat width .atom ++ rest) = true
  | .univ rank, _, rest => by
    obtain ⟨digits, hflat, -, -⟩ := Core.exists_flat_univ width .atom rank
    rw [hflat]
    exact startsOperand_cons (.inl (by decide)) _
  | .quant .., _, rest => by
    rw [Core.flat_quant]
    exact startsOperand_cons (.inr (.inl rfl)) _
  | .signature .nil, _, rest => by
    rw [Core.flat_signature_nil]
    exact startsOperand_cons (.inl (by decide)) _
  | .signature (.cons ..), _, rest => by
    rw [Core.flat_signature_cons]
    exact startsOperand_cons (.inl (by decide)) _
  | .lam .., _, rest => by
    rw [Core.flat_lam]
    exact startsOperand_cons (.inr (.inl rfl)) _
  | .record [], _, rest => by
    rw [Core.flat_record_nil]
    exact startsOperand_cons (.inl (by decide)) _
  | .record (_ :: _), _, rest => by
    rw [Core.flat_record_cons]
    exact startsOperand_cons (.inl (by decide)) _
  | .app .., _, rest => by
    rw [Core.flat_app]
    exact startsOperand_cons (.inr (.inl rfl)) _
  | .proj _ _ operator _, h, rest => by
    rw [Core.flat_proj, List.append_assoc]
    exact operator.startsOperand_flat h _
  | .var name, h, rest => by
    rw [Core.flat_var]
    exact startsOperand_ordinaryWord h rest
  | .const (.int n), _, rest => startsOperand_int n rest
  | .const (.str s), _, rest => by
    rw [Core.flat_str, toList_quote]
    exact startsOperand_cons (.inr (.inr rfl)) _

theorem Core.readsBack_app {rank : Nat} {type operator operand : Core}
    (hoperator : operator.ReadsBack width) (hoperand : operand.ReadsBack width)
    (hstarts : ∀ rest, startsOperand (operand.flat width .atom ++ rest) = true) :
    (Core.app rank type operator operand).ReadsBack width := by
  refine .of_operation rfl rfl fun frames rest hframes hrest ↦ ?_
  rw [Core.flat_app, parenthesized, if_neg (by decide), List.append_assoc]
  have hspace : EndsOperand (' ' :: (operand.flat width .atom ++ rest)) := by simp [EndsOperand]
  refine (hoperator.operation _ _ hframes hspace).trans ?_
  refine (reads_operand (hstarts rest)).trans ?_
  exact (hoperand.atom _ _ hrest.endsAtom).trans (reads_application _ hrest)

/-- A keyword and the block that it begins. -/
theorem start_keyword {word : List Char} (hword : word.all isWordChar = true)
    (hhead : word.head?.any (fun c ↦ !c.isDigit) = true) (text : List Char) :
    start frames (word ++ ' ' :: text) = startWord frames word (' ' :: text) :=
  start_word (List.all_eq_true.mp hword) hhead (by simp [EndsAtom])

theorem step_struct (text : List Char) :
    step ⟨frames, .start, "struct ".toList ++ text⟩ =
      openBlock frames (.signature .nil) (declare frames []) (' ' :: text) := by
  have hstart : start frames ("struct".toList ++ ' ' :: text) = _ :=
    start_keyword (by decide) (by decide) text
  rw [startWord, if_pos rfl] at hstart
  exact hstart

theorem step_new (text : List Char) :
    step ⟨frames, .start, "new ".toList ++ text⟩ =
      openBlock frames (.record []) (fun text ↦ some ⟨.member [] :: frames, .start, text⟩)
        (' ' :: text) := by
  have hstart : start frames ("new".toList ++ ' ' :: text) = _ :=
    start_keyword (by decide) (by decide) text
  rw [startWord, if_neg (by decide), if_pos rfl] at hstart
  exact hstart

/-- The members of a record are read one after the other. -/
theorem Core.reads_members {m : Core} {ms : List Core} (hm : m.ReadsBack width)
    (hms : ∀ m' ∈ ms, m'.ReadsBack width) (earlier : List Core) :
    Reads ⟨.member earlier :: frames, .start, Doc.items (Core.flats width (m :: ms)) ++ rest⟩
      ⟨frames, .projections (.record (earlier ++ Core.visibleMembers (m :: ms))), rest⟩ := by
  have hframes (earlier : List Core) : AwaitsTerm (.member earlier :: frames) := by
    simp [AwaitsTerm]
  induction ms generalizing m earlier with
  | nil =>
    have htext : Doc.items (Core.flats width [m]) ++ rest =
        m.flat width .binder ++ ' ' :: '\x7d' :: rest := by
      simp [Doc.items]
    rw [htext]
    refine (hm.term _ _ (hframes earlier) (.last rest)).trans (.single ?_)
    simp only [step, close, Core.visibleMembers]
  | cons m' ms ih =>
    have htext : Doc.items (Core.flats width (m :: m' :: ms)) ++ rest =
        m.flat width .binder ++
          ';' :: ' ' :: (Doc.items (Core.flats width (m' :: ms)) ++ rest) := by
      simp [Doc.items]
    have hcons : earlier ++ Core.visibleMembers (m :: m' :: ms) =
        earlier ++ [m.visible] ++ Core.visibleMembers (m' :: ms) := List.append_cons _ _ _
    rw [htext, hcons]
    refine (hm.term _ _ (hframes earlier) (.next _)).trans (.head ?_ (ih
      (hms m' List.mem_cons_self) (fun m'' h ↦ hms m'' (List.mem_cons_of_mem _ h)) _))
    simp only [step, close]

theorem Core.readsBack_record {ms : List Core} (hms : ∀ m ∈ ms, m.ReadsBack width) :
    (Core.record ms).ReadsBack width := by
  refine .of_atom (fun _ ↦ rfl) fun frames rest hrest ↦ ?_
  cases ms with
  | nil =>
    rw [Core.flat_record_nil, List.append_assoc]
    exact .single (step_new _)
  | cons m ms =>
    rw [Core.flat_record_cons, List.append_assoc]
    refine .head (step_new _) (Core.reads_members (hms m List.mem_cons_self)
      (fun m' h ↦ hms m' (List.mem_cons_of_mem _ h)) [])

/-- Every declaration of a record type has a word for its name and a type that is read back. -/
def Telescope.ReadsBack (width : Nat) (members : Telescope) : Prop :=
  ∀ member ∈ members.toList, isOrdinaryWord member.term = true ∧ member.type.ReadsBack width

theorem declare_declarationText {name : String} (hname : isOrdinaryWord name = true)
    (earlier : List (Classified String)) (type : List Char) :
    declare frames earlier (declarationText name type ++ rest) =
      some ⟨.declaration earlier name :: frames, .start, type ++ rest⟩ := by
  have hspace : Ends isWordChar (' ' :: ':' :: ' ' :: (type ++ rest)) := ends_cons (by decide)
  rw [declare, declarationText, List.append_assoc]
  simp only [List.cons_append, readWord_append (isWordChar_of_isOrdinaryWord hname) hspace,
    String.ofList_toList]

/-- The declarations of a record type are read one after the other. -/
theorem Telescope.reads_declarations {rank : Nat} {type : Core} {name : String} :
    (members : Telescope) → (cons rank type name members).ReadsBack width →
    (earlier : List (Classified String)) → ∃ state,
      declare frames earlier (Doc.items ((cons rank type name members).flats width) ++ rest) =
        some state ∧
      Reads state ⟨frames, .projections (.signature
        (.ofList (earlier ++ (cons rank type name members).visible.toList))), rest⟩
  | .nil, h, earlier => by
    obtain ⟨⟨hname, htype⟩, -⟩ := List.forall_mem_cons.mp h
    have hframes : AwaitsTerm (.declaration earlier name :: frames) := by simp [AwaitsTerm]
    have htext : Doc.items ((cons rank type name .nil).flats width) ++ rest =
        declarationText name (type.flat width .binder) ++ ' ' :: '\x7d' :: rest := by
      simp [Doc.items]
    refine ⟨_, by rw [htext, declare_declarationText hname], ?_⟩
    refine (htype.term _ _ hframes (.last rest)).trans (.single ?_)
    simp only [step, close, visible, toList]
  | .cons rank' type' name' members, h, earlier => by
    obtain ⟨⟨hname, htype⟩, hmembers⟩ := List.forall_mem_cons.mp h
    have hframes : AwaitsTerm (.declaration earlier name :: frames) := by simp [AwaitsTerm]
    have htext : Doc.items ((cons rank type name (.cons rank' type' name' members)).flats width) ++
        rest = declarationText name (type.flat width .binder) ++ ';' :: ' ' ::
          (Doc.items ((cons rank' type' name' members).flats width) ++ rest) := by
      simp [Doc.items]
    have hcons : earlier ++ (cons rank type name (.cons rank' type' name' members)).visible.toList =
        earlier ++ [⟨0, type.visible, name⟩] ++
          (cons rank' type' name' members).visible.toList := List.append_cons _ _ _
    obtain ⟨state, hstate, hreads⟩ := Telescope.reads_declarations members hmembers
      (earlier ++ [⟨0, type.visible, name⟩])
    refine ⟨_, by rw [htext, declare_declarationText hname], ?_⟩
    rw [hcons]
    refine (htype.term _ _ hframes (.next _)).trans (.head ?_ hreads)
    simp only [step, close, hstate]

theorem Telescope.ofList_toList (members : Telescope) : ofList members.toList = members := by
  cases members with
  | nil => rfl
  | cons rank type name rest => exact congrArg (cons rank type name) rest.ofList_toList

theorem Core.readsBack_signature {members : Telescope} (h : members.ReadsBack width) :
    (Core.signature members).ReadsBack width := by
  refine .of_atom (fun _ ↦ ?_) fun frames rest hrest ↦ ?_
  · cases members <;> rfl
  · cases members with
    | nil =>
      rw [Core.flat_signature_nil, List.append_assoc]
      exact .single (step_struct _)
    | cons rank type name members =>
      obtain ⟨state, hstate, hreads⟩ := Telescope.reads_declarations members h []
      rw [List.nil_append, Telescope.ofList_toList] at hreads
      rw [Core.flat_signature_cons, List.append_assoc]
      exact .head ((step_struct _).trans hstate) hreads

end Forms

/-! ### All terms -/

mutual

/-- Every core term in ordinary words is read back. -/
theorem Core.readsBack : (t : Core) → t.isOrdinary = true → t.ReadsBack width
  | .univ rank, _ => Core.readsBack_univ rank
  | .quant _ _ domain name codomain, h => by
    simp only [Core.isOrdinary, Bool.and_eq_true, Bool.or_eq_true, beq_iff_eq] at h
    exact Core.readsBack_quant h.1.2 (domain.readsBack h.1.1) (codomain.readsBack h.2)
  | .signature members, h => Core.readsBack_signature (members.readsBack h)
  | .lam param _ body, h => by
    rw [Core.isOrdinary, Bool.and_eq_true] at h
    exact Core.readsBack_lam h.1 (body.readsBack h.2)
  | .record members, h => Core.readsBack_record (Core.readsBackMembers members h)
  | .app _ _ operator operand, h => by
    rw [Core.isOrdinary, Bool.and_eq_true] at h
    exact Core.readsBack_app (operator.readsBack h.1) (operand.readsBack h.2)
      (operand.startsOperand_flat h.2)
  | .proj _ _ operator _, h => Core.readsBack_proj (operator.readsBack h)
  | .var name, h => Core.readsBack_var h
  | .const (.int n), _ => Core.readsBack_int n
  | .const (.str s), _ => Core.readsBack_str s

theorem Telescope.readsBack : (members : Telescope) → members.isOrdinary = true →
    members.ReadsBack width
  | .nil, _ => by simp [Telescope.ReadsBack, Telescope.toList]
  | .cons _ type name rest, h => by
    simp only [Telescope.isOrdinary, Bool.and_eq_true] at h
    exact List.forall_mem_cons.mpr ⟨⟨h.1.2, type.readsBack h.1.1⟩, rest.readsBack h.2⟩

theorem Core.readsBackMembers : (members : List Core) → Core.areOrdinary members = true →
    ∀ m ∈ members, m.ReadsBack width
  | [], _ => by simp
  | m :: ms, h => by
    rw [Core.areOrdinary, Bool.and_eq_true] at h
    exact List.forall_mem_cons.mpr ⟨m.readsBack h.1, Core.readsBackMembers ms h.2⟩

end

/-- A term printed on one line is read back to its end. -/
theorem Core.reads_print {t : Core} (ht : t.isOrdinary = true) {width : Nat}
    (hflat : '\n' ∉ (print (.ofWidth width) t).toList) :
    Reads ⟨[], .start, (print (.ofWidth width) t).toList⟩ ⟨[], .complete t.visible, []⟩ := by
  have htext : (print (.ofWidth width) t).toList = t.flat width .binder := Doc.render_eq_flat hflat
  have hframes : AwaitsTerm [] := by simp [AwaitsTerm]
  have hterm : t.ReadsBack width := t.readsBack ht
  have hread := hterm.term [] [] hframes .nil
  rwa [List.append_nil, ← htext] at hread

/-- Core terms in ordinary words that are printed alike on one line differ in nothing that is
printed. -/
theorem Core.print_unambiguous {s t : Core} (hs : s.isOrdinary = true) (ht : t.isOrdinary = true)
    {width : Nat} (hprint : print (.ofWidth width) s = print (.ofWidth width) t)
    (hflat : '\n' ∉ (print (.ofWidth width) s).toList) : s.visible = t.visible := by
  have hreads : Reads ⟨[], .start, (print (.ofWidth width) s).toList⟩
      ⟨[], .complete s.visible, []⟩ := Core.reads_print hs hflat
  have hreads' : Reads ⟨[], .start, (print (.ofWidth width) s).toList⟩
      ⟨[], .complete t.visible, []⟩ := by
    rw [hprint] at hflat ⊢
    exact Core.reads_print ht hflat
  have hstate := Reader.reads_deterministic hreads hreads' rfl rfl
  injection hstate with _ hfocus
  exact Focus.complete.inj hfocus

/-- The binder and the ranks of an arrow are not printed. -/
theorem Core.print_unambiguous_arrow :
    (Core.quant .universal 1 (.var "a") "x" (.app 0 (.univ 0) (.var "f") (.var "a"))).visible =
      (Core.quant .universal 2 (.var "a") anonymous
        (.app 3 (.univ 1) (.var "f") (.var "a"))).visible :=
  @print_unambiguous _ _ (by decide +kernel) (by decide +kernel) 80 (by decide +kernel)
    (by decide +kernel)

end RankedTT
