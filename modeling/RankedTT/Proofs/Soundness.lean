import RankedTT.Proofs.Elaboration
import RankedTT.Proofs.Interpretation

/-!
Elaboration is sound if it is hygienic: if all moves of a derivation are hygienic, the elaborated
term has the elaborated type, and this type has the recorded rank, in every interpretation of the
context. The rules are treated one by one; then the theorem follows by induction on derivations.
-/

set_option autoImplicit false
set_option relaxedAutoImplicit false

namespace RankedTT

open Nameless

/-! ### The rules -/

/-- The term has the recorded type, and this is a type of the recorded rank. -/
structure Classified.Typed (judgement : Classified Core) (τ : Ref → Nameless) (Γ : Assignment) :
    Prop where
  term : HasType Γ (judgement.term.meaning τ) (judgement.type.meaning τ)
  ranked : HasType Γ (judgement.type.meaning τ) (.univ judgement.rank)

theorem Classified.Typed.type {judgement : Classified Core} {τ : Ref → Nameless} {Γ : Assignment}
    (h : judgement.Typed τ Γ) : IsType Γ (judgement.type.meaning τ) :=
  ⟨_, h.ranked⟩

/-- What is expected is a type, of the rank that is recorded for it. -/
def Classified.Expects (expected : Classified Core) (τ : Ref → Nameless) (Γ : Assignment) : Prop :=
  ∃ rank, expected.type = .univ rank ∧ HasType Γ (expected.term.meaning τ) (.univ rank)

theorem Core.meaning_arrow (τ : Ref → Nameless) {t : Core} (h : (Move.weaken t).Hygienic)
    (polarity : Polarity) (rank : Nat) (domain : Core) :
    (Core.quant polarity rank domain anonymous t).meaning τ =
      .quant polarity rank (domain.meaning τ) (t.meaning τ).shift := by
  rw [meaning_quant, Core.meaning_under τ h]

section Rules

variable {ctx : Ctx} {τ : Ref → Nameless} {Γ : Assignment}

/-- The parts of a function type in normal form. -/
theorem Ctx.Interprets.quantifier (h : ctx.Interprets τ Γ) {t : Core} {n : Nat}
    (ht : HasType Γ (t.meaning τ) (.univ n)) {polarity : Polarity} {rank : Nat}
    {domain codomain : Core} {name : String}
    (hnormal : (Move.normalize ctx t (.quant polarity rank domain name codomain)).Hygienic) :
    HasType Γ ((Core.quant polarity rank domain name codomain).meaning τ) (.univ n) ∧
      HasType Γ (domain.meaning τ) (.univ rank) ∧
      HasType (Γ.extend (domain.meaning τ)) (codomain.meaning (under τ name)) (.univ n) := by
  have hquant := ht.reduces (hnormal.reduces h.resolves)
  refine ⟨hquant, ?_⟩
  rw [Core.meaning_quant] at hquant
  obtain ⟨m, hm, hdomain, hcodomain⟩ := hquant.quant_inv
  exact ⟨hdomain, hcodomain.conv hm⟩

theorem Classified.Typed.app (h : ctx.Interprets τ Γ) {function : Classified Core}
    (hfunction : function.Typed τ Γ) {rank : Nat} {domain codomain operand range result : Core}
    {name : String}
    (hnormal : (Move.normalize ctx function.type
      (.quant .universal rank domain name codomain)).Hygienic)
    (hoperand : HasType Γ (domain.meaning τ) (.univ rank) →
      HasType Γ (operand.meaning τ) (domain.meaning τ))
    (hrange : (Move.substitute (.single name operand) codomain range).Hygienic)
    (hresult : (Move.normalize ctx range result).Hygienic) :
    Classified.Typed ⟨function.rank, result, .app function.rank
      (.quant .universal rank domain name codomain) function.term operand⟩ τ Γ := by
  obtain ⟨htype, hdomain, hcodomain⟩ := h.quantifier hfunction.ranked hnormal
  have hargument := hoperand hdomain
  have hoperator := hfunction.term.conv (hnormal.reduces h.resolves).conv
  rw [Core.meaning_quant] at hoperator
  have hinst : (codomain.meaning (under τ name)).inst (operand.meaning τ) = range.meaning τ := by
    rw [Core.inst_meaning, hrange.meaning_single]
  have happ := HasType.app function.rank htype hoperator hargument
  have hrangeType := hcodomain.inst hargument
  rw [hinst] at happ hrangeType
  have hsteps := hresult.reduces h.resolves
  exact ⟨happ.conv hsteps.conv, hrangeType.reduces hsteps⟩

/-- While the body of a let binding is elaborated, the name stands for the definition. -/
theorem Classified.Typed.letIn (h : ctx.Interprets τ Γ) {name : String}
    {defined elaborated : Classified Core} {term type result function : Core}
    (hdefined : defined.Typed τ Γ) (hterm : Reduces (defined.term.meaning τ) (term.meaning τ))
    (helaborated : elaborated.Typed (rebind τ name (defined.term.meaning τ)) Γ)
    (hresult : (Move.normalize (ctx.bind name ⟨defined.rank, type, term⟩) elaborated.type
      result).Hygienic)
    (hweaken : (Move.weaken result).Hygienic)
    (hfunction : function.unstamped = (Core.lam name none elaborated.term).unstamped) :
    Classified.Typed ⟨elaborated.rank, result, .app elaborated.rank
      (.quant .universal defined.rank defined.type anonymous result) function defined.term⟩ τ
      Γ := by
  have hsteps := hresult.reduces (h.resolves.bind hterm)
  have hresultType := helaborated.ranked.reduces hsteps
  have harrow : HasType Γ
      ((Core.quant .universal defined.rank defined.type anonymous result).meaning τ)
      (.univ elaborated.rank) := by
    rw [Core.meaning_arrow τ hweaken]
    exact .quant _ hdefined.ranked (hresultType.shift _)
  have hbody : HasType Γ ((elaborated.term.meaning (under τ name)).inst (defined.term.meaning τ))
      (result.meaning τ) := by
    rw [Core.inst_meaning]
    exact helaborated.term.conv hsteps.conv
  refine ⟨?_, hresultType⟩
  change HasType Γ (.app _ _ (function.meaning τ) _) _
  rw [Core.meaning_of_unstamped hfunction, Core.meaning_lam]
  exact .letIn _ harrow hdefined.term hbody

/-- The codomain is about the parameter, whatever name the function type has for it. -/
theorem Ctx.Interprets.range_eq (h : ctx.Interprets τ Γ) {t : Core} (ht : IsType Γ (t.meaning τ))
    {rank : Nat} {domain codomain range : Core} {name param : String}
    (hfresh : ctx.isFresh param = true) (hparam : param ≠ anonymous)
    (hnormal : (Move.normalize ctx t (.quant .universal rank domain name codomain)).Hygienic)
    (hrange : (Move.substitute (.single name (.var param)) codomain range).Hygienic) :
    range.meaning (under τ param) = codomain.meaning (under τ name) := by
  obtain ⟨n, ht⟩ := ht
  have hunused := h.not_mem_freeNames hfresh hparam (h.quantifier ht hnormal).1
  rw [hrange.meaning_single]
  refine Core.meaning_congr fun x hx ↦ ?_
  by_cases hxname : x = name
  · subst hxname
    rw [rebind_self, under_self]
    exact under_self τ param
  · have hxparam : x ≠ param := by
      rintro rfl
      exact hunused (List.mem_append.mpr (.inr (List.mem_filter.mpr ⟨hx, by simpa using hxname⟩)))
    rw [rebind_of_ne _ _ _ hxname, under_of_ne τ _ hxparam, under_of_ne τ _ hxname]

theorem Nameless.HasType.lambda (rank : Nat) {param : String} {domain body function : Core}
    {C : Nameless} (hbody : HasType (Γ.extend (domain.meaning τ)) (body.meaning (under τ param)) C)
    (hfunction : function.unstamped = (Core.lam param none body).unstamped) :
    HasType Γ (function.meaning τ) (.quant .universal rank (domain.meaning τ) C) := by
  rw [Core.meaning_of_unstamped hfunction, Core.meaning_lam]
  exact .lam rank hbody

/-- The inferred return type does not mention the parameter. -/
theorem Classified.Typed.typedLam {param : String} {rank : Nat} {domain bodyType function : Core}
    {found : Classified Core} (hdomain : HasType Γ (domain.meaning τ) (.univ rank))
    (hinner : (ctx.bindDeclared ⟨rank, domain, param⟩).Interprets (under τ param)
      (Γ.extend (domain.meaning τ)))
    (hfound : found.Typed (under τ param) (Γ.extend (domain.meaning τ)))
    (hnormal : (Move.normalize (ctx.bindDeclared ⟨rank, domain, param⟩) found.type
      bodyType).Hygienic)
    (hweaken : (Move.weaken bodyType).Hygienic) (hparam : bodyType.occursFree param = false)
    (hfunction : function.unstamped = (Core.lam param none found.term).unstamped) :
    Classified.Typed ⟨found.rank, .quant .universal rank domain anonymous bodyType, function⟩ τ
      Γ := by
  have hsteps := hnormal.reduces hinner.resolves
  have hunused : param ∉ bodyType.freeNames := by simp [← Core.occursFree_iff_mem, hparam]
  rw [Core.meaning_under τ hunused] at hsteps
  constructor
  · rw [Core.meaning_arrow τ hweaken]
    exact .lambda _ (hfound.term.conv hsteps.conv) hfunction
  · rw [Core.meaning_arrow τ hweaken]
    exact .quant _ hdomain (hfound.ranked.reduces hsteps)

/-- A function against the arrow from the type of its argument to the expected type. -/
theorem Classified.Typed.appliedLambda {argument : Classified Core} {function expected : Core}
    {n : Nat} (hargument : argument.Typed τ Γ)
    (hexpected : HasType Γ (expected.meaning τ) (.univ n))
    (hweaken : (Move.weaken expected).Hygienic)
    (hfunction :
      let arrow := Core.quant .universal argument.rank argument.type anonymous expected
      HasType Γ (arrow.meaning τ) (.univ n) → HasType Γ (function.meaning τ) (arrow.meaning τ))
    (rank : Nat) :
    HasType Γ ((Core.app rank
      (.quant .universal argument.rank argument.type anonymous expected) function
        argument.term).meaning τ) (expected.meaning τ) := by
  have harrow : HasType Γ
      ((Core.quant .universal argument.rank argument.type anonymous expected).meaning τ)
      (.univ n) := by
    rw [Core.meaning_arrow τ hweaken]
    exact .quant _ hargument.ranked (hexpected.shift _)
  have hoperator := hfunction harrow
  rw [Core.meaning_arrow τ hweaken] at hoperator
  have happ := HasType.app rank harrow hoperator hargument.term
  rwa [inst_shift] at happ

/-- An instance of a class for a name that was just declared is a type of the rank that the class
returns. -/
theorem Ctx.Interprets.instance_ranked (h : ctx.Interprets τ Γ) {cls : Classified Core}
    (hcls : cls.Typed τ Γ) {name param : String} (hfresh : ctx.isFresh name = true)
    (hname : name ≠ anonymous) {rank instanceRank : Nat} {domain operator : Core}
    (htype : (Move.normalize ctx cls.type
      (.quant .universal rank domain param (.univ instanceRank))).Hygienic)
    (hoperator : (Move.normalize ctx cls.term operator).Hygienic) :
    HasType Γ (domain.meaning τ) (.univ rank) ∧ HasType (Γ.extend (domain.meaning τ))
      ((Core.app cls.rank (.quant .universal rank domain param (.univ instanceRank)) operator
        (.var name)).meaning (under τ name)) (.univ instanceRank) := by
  obtain ⟨hquant, hdomain, -⟩ := h.quantifier hcls.ranked htype
  have hterm := (hcls.term.conv (htype.reduces h.resolves).conv).reduces
    (hoperator.reduces h.resolves)
  refine ⟨hdomain, ?_⟩
  change HasType _ (.app _ ((Core.quant _ _ _ _ _).meaning _) (operator.meaning _)
    (under τ name (.free name))) _
  rw [Core.meaning_under τ (h.not_mem_freeNames hfresh hname hquant),
    Core.meaning_under τ (h.not_mem_freeNames hfresh hname hterm), under_self]
  have hshift := hterm.shift (domain.meaning τ)
  rw [Core.meaning_quant] at hshift
  exact .app _ (hquant.shift _) hshift (.var rfl)

/-- The type that a quantifier makes of a type in its scope. -/
theorem Classified.Typed.quantify {binder : Classified String} {range : Classified Core}
    {rank : Nat} (hdomain : HasType Γ (binder.type.meaning τ) (.univ binder.rank))
    (hrange : range.Typed (under τ binder.term) (Γ.extend (binder.type.meaning τ)))
    (hrank : range.type = .univ rank) (polarity : Polarity) :
    (range.map (Core.quantify polarity binder)).Typed τ Γ := by
  obtain ⟨hterm, htype⟩ := hrange
  rw [hrank] at hterm htype
  constructor
  · change HasType Γ ((Core.quant _ _ _ _ _).meaning τ) (range.type.meaning τ)
    rw [hrank, Core.meaning_quant]
    exact .quant _ hdomain hterm
  · change HasType Γ (range.type.meaning τ) (.univ range.rank)
    rw [hrank]
    exact (HasType.univ rank).conv htype.univ_inv

/-- A universe is its own normal form. -/
theorem Move.Hygienic.univ_inv {rank : Nat} {result : Core}
    (h : (Move.normalize ctx (.univ rank) result).Hygienic) : result = .univ rank := by
  have hresult : result.nameless [] = .univ rank := Reduces.univ_inv h
  cases result <;> cases hresult
  rfl

/-! ### Records -/

/-- The members of a record are taken in turn: `ctx` is the context `outer` with the members so far,
whose values are also in `earlier`. -/
structure Members (outer ctx : Ctx) (earlier : Substitution) (τ₀ τ : Ref → Nameless)
    (Γ : Assignment) : Prop where
  interpretsOuter : outer.Interprets τ₀ Γ
  interprets : ctx.Interprets τ Γ
  extendsOuter : ctx.Extends outer
  images : ∀ x, τ (.free x) = (Substitution.image earlier x).meaning τ₀
  agrees : ∀ x, outer.maps x = true → τ (.free x) = τ₀ (.free x)
  resolves : ctx.Resolves τ τ₀

namespace Members

variable {outer : Ctx} {earlier : Substitution} {τ₀ : Ref → Nameless}

theorem start (h : outer.Interprets τ₀ Γ) : Members outer outer [] τ₀ τ₀ Γ where
  interpretsOuter := h
  interprets := h
  extendsOuter := .refl outer
  images _ := rfl
  agrees _ _ := rfl
  resolves := h.resolves

/-- What has a meaning outside has the same meaning inside. -/
theorem meaning_eq (h : Members outer ctx earlier τ₀ τ Γ) {t : Core} {T : Nameless}
    (ht : HasType Γ (t.meaning τ₀) T) : t.meaning τ = t.meaning τ₀ :=
  Core.meaning_congr fun x hx ↦ h.agrees x (h.interpretsOuter.maps_of_hasType ht hx)

theorem member_eq (h : Members outer ctx earlier τ₀ τ Γ) {t member : Core}
    (hmember : (Move.substitute earlier t member).Hygienic) :
    member.meaning τ₀ = t.meaning τ := by
  rw [hmember.meaning_eq]
  exact Core.meaning_congr fun x _ ↦ (h.images x).symm

theorem bind (h : Members outer ctx earlier τ₀ τ Γ) {name : String}
    (hfresh : ctx.isFresh name = true) (hname : name ≠ anonymous) {rank : Nat} {type term : Core}
    (hterm : HasType Γ (term.meaning τ₀) (type.meaning τ))
    (htype : HasType Γ (type.meaning τ) (.univ rank)) :
    Members outer (ctx.bind name ⟨rank, type, term⟩) (.insert earlier name term) τ₀
      (rebind τ name (term.meaning τ₀)) Γ where
  interpretsOuter := h.interpretsOuter
  interprets := by
    refine h.interprets.bindValue hfresh hname hterm htype ?_
    rw [h.meaning_eq hterm]
  extendsOuter := h.extendsOuter.bind name _
  images x := by
    rw [Substitution.image_insert]
    by_cases hx : x = name
    · subst hx
      rw [if_pos rfl, rebind_self]
    · rw [if_neg hx, rebind_of_ne _ _ _ hx, h.images x]
  agrees x hx := by
    have hne := Ctx.ne_of_isFresh hfresh hname (h.extendsOuter x hx)
    rw [rebind_of_ne _ _ _ hne, h.agrees x hx]
  resolves := h.resolves.bind .refl

/-- One more member, whose type does not mention the members before it. -/
theorem cons (h : Members outer ctx earlier τ₀ τ Γ) {name : String}
    (hfresh : ctx.isFresh name = true) (hname : name ≠ anonymous) {rank n : Nat}
    {type member : Core} {members : List Core} {types : Telescope}
    (hmember : HasType Γ (member.meaning τ₀) (type.meaning τ₀))
    (htype : HasType Γ (type.meaning τ₀) (.univ rank))
    (hmembers : HasType Γ (Core.meaningMembers τ₀ members) (types.meaning τ₀))
    (htypes : HasType Γ (types.meaning τ₀) (.univ n)) :
    HasType Γ (Core.meaningMembers τ₀ (member :: members))
        ((Telescope.cons rank type name types).meaning τ₀) ∧
      HasType Γ ((Telescope.cons rank type name types).meaning τ₀) (.univ (max rank n)) := by
  have hsignature : HasType Γ ((Core.signature types).meaning τ₀) (.univ n) := .signature htypes
  have hunused : name ∉ (Core.signature types).freeNames := fun hmem ↦ by
    have hmaps := h.interpretsOuter.maps_of_hasType hsignature hmem
    exact Ctx.ne_of_isFresh hfresh hname (h.extendsOuter name hmaps) rfl
  have hshift : types.meaning (under τ₀ name) = (types.meaning τ₀).shift :=
    Nameless.signature.inj (Core.meaning_under τ₀ hunused)
  rw [Telescope.meaning_cons, hshift]
  constructor
  · refine .cons rank name hmember ?_
    rw [inst_shift]
    exact hmembers
  · exact .declare name htype (htypes.shift _)

end Members

theorem Telescope.reduces_rebind (types : Telescope) (τ : Ref → Nameless) (name : String)
    {u v : Nameless} (h : Reduces u v) :
    Reduces (types.meaning (rebind τ name u)) (types.meaning (rebind τ name v)) := by
  refine .subst_right _ fun ref ↦ ?_
  cases ref with
  | bound i => exact .refl
  | free x =>
    by_cases hx : x = name
    · subst hx
      rw [rebind_self, rebind_self]
      exact h
    · rw [rebind_of_ne _ _ _ hx, rebind_of_ne _ _ _ hx]

/-- The type of a selected member, with the projections of the members before it put in. -/
theorem Selects.declares {record : Classified Core} {name : String} {i j rank : Nat}
    {earlier σ : Substitution} {types : Telescope} {type : Core}
    (h : Selects record name i earlier types σ rank type j) {υ : Ref → Nameless}
    (hυ : ∀ x, υ (.free x) = (Substitution.image earlier x).meaning τ)
    {n : Nat} (htypes : HasType Γ (types.meaning υ) (.univ n))
    (hproject : ∀ k T, Declares (fun k ↦ (Core.project record (i + k)).meaning τ)
      (types.meaning υ) k T → HasType Γ ((Core.project record (i + k)).meaning τ) T) :
    HasType Γ ((Core.project record j).meaning τ) (type.meaning (through σ.image τ)) ∧
      HasType Γ (type.meaning (through σ.image τ)) (.univ rank) := by
  induction h generalizing υ n with
  | here =>
    rename_i type rest
    have htype : type.meaning (through _ τ) = type.meaning υ :=
      Core.meaning_congr fun x _ ↦ (hυ x).symm
    rw [Telescope.meaning_cons] at htypes hproject
    obtain ⟨_, -, hselected, -⟩ := htypes.declare_inv
    rw [htype]
    exact ⟨hproject 0 _ (.here (.refl _)), hselected⟩
  | @there i _ _ _ _ _ _ type' label rest _ _ ih =>
    rw [Telescope.meaning_cons] at htypes hproject
    obtain ⟨_, -, -, hrest⟩ := htypes.declare_inv
    have hmember := hproject 0 _ (.here (.refl _))
    have hrest := hrest.inst hmember
    rw [Telescope.inst_meaning] at hrest
    refine ih (fun x ↦ ?_) hrest fun k T hdeclares ↦ ?_
    · rw [Substitution.image_insert]
      by_cases hx : x = label
      · subst hx
        rw [if_pos rfl, rebind_self, Nat.add_zero]
      · rw [if_neg hx, rebind_of_ne _ _ _ hx, hυ x]
    · have hindex (k : Nat) : i + 1 + k = i + (k + 1) := by omega
      simp only [hindex] at hdeclares ⊢
      refine hproject (k + 1) T (.there (.refl _) ?_)
      rw [Telescope.inst_meaning]
      exact hdeclares

end Rules

/-! ### Derivations -/

theorem Ensures.type_eq {moves : List Move} {ctx : Ctx} {t : Term}
    {expected : Option (Classified Core)} {found : Classified Core}
    (h : Ensures moves ctx t expected found) :
    ∀ judgement ∈ expected, found.type = judgement.term := by
  cases h with
  | infer => simp
  | check => simp

theorem Quantifies.type_eq {moves : List Move} {ctx : Ctx} {polarity : Polarity}
    {binder : Classified String} {body : Term} {found : Classified Core}
    (h : Quantifies moves ctx polarity binder body found) : ∃ rank, found.type = .univ rank := by
  cases h with
  | mk _ hrank => exact ⟨_, hrank⟩

mutual

/-- What is inferred by hygienic moves is typed. -/
theorem Infers.sound {moves : List Move} {ctx : Ctx} {t : Term} {found : Classified Core}
    {τ : Ref → Nameless} {Γ : Assignment} : Infers moves ctx t found →
      (∀ m ∈ moves, m.Hygienic) → ctx.Interprets τ Γ → found.Typed τ Γ
  | .univ rank, _, _ => ⟨.univ rank, .univ (rank + 1)⟩
  | .var hget, _, h => by
    obtain ⟨hterm, htype⟩ := h.typed _ _ hget
    exact ⟨hterm, htype⟩
  | .typedLam hfresh htype hbody hparam hfunction, hm, h => by
    simp only [List.forall_mem_append, List.forall_mem_cons] at hm
    obtain ⟨⟨hmtype, hmbody⟩, hname, hnormal, hweaken, -⟩ := hm
    have hdomain := htype.sound hmtype h
    have hinner := h.bindNamed hfresh hname hdomain
    exact .typedLam hdomain hinner (hbody.sound hmbody hinner) hnormal hweaken hparam hfunction
  | .app _ _ hfunction hargument, hm, h => by
    simp only [List.forall_mem_append, List.forall_mem_cons] at hm
    obtain ⟨⟨hmfunction, hmargument⟩, hnormal, hrange, hresult, -⟩ := hm
    exact .app h (hfunction.sound hmfunction h) hnormal
      (fun hdomain ↦ hargument.sound hmargument h ⟨_, rfl, hdomain⟩) hrange hresult
  | .appliedLam hbinds, hm, h => (hbinds.sound hm h (by simp)).1
  | .quantUnbounded hfresh hquantifies, hm, h => hquantifies.sound hm h hfresh (.univ 0)
  | .quantType hfresh htype hquantifies, hm, h => by
    obtain ⟨hmtype, hmbody⟩ := List.forall_mem_append.mp hm
    exact hquantifies.sound hmbody h hfresh (htype.sound hmtype h)
  | .quantClass hfresh hcls hquantifies, hm, h => by
    simp only [List.forall_mem_append, List.forall_mem_cons] at hm
    obtain ⟨⟨hmcls, hmbody⟩, htype, hoperator, hname, -⟩ := hm
    obtain ⟨hdomain, hinstance⟩ :=
      h.instance_ranked (hcls.sound hmcls h) hfresh hname htype hoperator
    have hrange := hquantifies.sound hmbody (h.bindNamed hfresh hname hdomain) rfl hinstance
    obtain ⟨rank, hrank⟩ := hquantifies.type_eq
    exact .quantify hdomain hrange hrank _
  | .signature htypes, hm, h => by
    exact ⟨.signature (htypes.sound hm h), .univ _⟩
  | .record hmembers, hm, h => by
    obtain ⟨hmembers, htypes⟩ := hmembers.sound hm (.start h)
    exact ⟨.record hmembers, .signature htypes⟩
  | .access _ hoperator hmember, hm, h => by
    simp only [List.forall_mem_append, List.forall_mem_cons] at hm
    obtain ⟨hmoperator, hnormal, hsubst, hresult, -⟩ := hm
    have hfound := hoperator.sound hmoperator h
    have hsteps := hnormal.reduces h.resolves
    have htype := hfound.ranked.reduces hsteps
    obtain ⟨_, -, htypes⟩ := htype.signature_inv
    have hselected := hmember.declares (fun _ ↦ rfl) htypes fun k T hdeclares ↦ ?_
    · rw [← hsubst.meaning_eq] at hselected
      have hsteps := hresult.reduces h.resolves
      exact ⟨hselected.1.conv hsteps.conv, hselected.2.reduces hsteps⟩
    · simp only [Nat.zero_add] at hdeclares ⊢
      exact .proj _ htype (hfound.term.conv hsteps.conv) hdeclares
  | .anno htype hterm, hm, h => by
    obtain ⟨hmtype, hmterm⟩ := List.forall_mem_append.mp hm
    have hdomain := htype.sound hmtype h
    exact ⟨hterm.sound hmterm h ⟨_, rfl, hdomain⟩, hdomain⟩
  | .letIn hbinds, hm, h => (hbinds.sound hm h (by simp)).1
  | .literal hliteral, _, h => by
    cases hliteral with
    | int n =>
      have hint : τ (.free "int") = _ := h.base "int" (by simp [baseTypes])
      constructor
      · change HasType Γ (.const (.int n)) (τ (.free "int"))
        rw [hint]
        exact .const rfl
      · change HasType Γ (τ (.free "int")) _
        rw [hint]
        exact .base (by simp [baseTypes])
    | string s =>
      have hstring : τ (.free "string") = _ := h.base "string" (by simp [baseTypes])
      constructor
      · change HasType Γ (.const (.str s)) (τ (.free "string"))
        rw [hstring]
        exact .const rfl
      · change HasType Γ (τ (.free "string")) _
        rw [hstring]
        exact .base (by simp [baseTypes])
  | .typeOf hterm, hm, h => ⟨(hterm.sound hm h).ranked, .univ _⟩

theorem Checks.sound {moves : List Move} {ctx : Ctx} {t : Term} {expected : Classified Core}
    {elaborated : Core} {τ : Ref → Nameless} {Γ : Assignment} :
    Checks moves ctx t expected elaborated → (∀ m ∈ moves, m.Hygienic) → ctx.Interprets τ Γ →
      expected.Expects τ Γ → HasType Γ (elaborated.meaning τ) (expected.term.meaning τ)
  | .univ rank, hm, h, _ => by
    have hsteps := ((List.forall_mem_cons.mp hm).1).reduces h.resolves
    exact .conv (.univ rank) hsteps.conv.symm
  | .lam hlambda, hm, h, hexpected => hlambda.sound hm h hexpected
  | .typedLam _ _ hlambda, hm, h, hexpected => by
    simp only [List.forall_mem_append] at hm
    exact hlambda.sound hm.1.2 h hexpected
  | .appliedLambda _ hargument _ hfunction, hm, h, hexpected => by
    simp only [List.forall_mem_append, List.forall_mem_cons] at hm
    obtain ⟨⟨hmargument, hmfunction⟩, hweaken, -⟩ := hm
    obtain ⟨n, hn, hexpected⟩ := hexpected
    exact Classified.Typed.appliedLambda (hargument.sound hmargument h) hexpected hweaken
      (fun harrow ↦ hfunction.sound hmfunction h ⟨n, hn, harrow⟩) _
  | .record hmembers, hm, h, hexpected => by
    simp only [List.forall_mem_append, List.forall_mem_cons] at hm
    obtain ⟨hmmembers, hnormal, -⟩ := hm
    have hsteps := hnormal.reduces h.resolves
    obtain ⟨_, -, hexpected⟩ := hexpected
    obtain ⟨_, -, htypes⟩ := (hexpected.reduces hsteps).signature_inv
    have hrecord := hmembers.sound hmmembers (.start h) htypes
    exact .conv (.record hrecord) hsteps.conv.symm
  | .anno _ _ hterm, hm, h, hexpected => by
    simp only [List.forall_mem_append] at hm
    exact hterm.sound hm.1.2 h hexpected
  | .letIn hbinds, hm, h, hexpected => by
    obtain ⟨hfound, htype⟩ := hbinds.sound hm h (by simpa using hexpected)
    exact hfound.term.conv (htype _ rfl).symm
  | .inferred _ hinfers _ halpha, hm, h, _ => by
    simp only [List.forall_mem_append, List.forall_mem_cons] at hm
    obtain ⟨hminfers, hn, hn', -⟩ := hm
    have hsame : (Core.meaning τ _) = Core.meaning τ _ :=
      congrArg (Nameless.subst τ) ((Core.alphaEq_iff _ _).mp halpha)
    have hfound := (hinfers.sound hminfers h).term.conv (hn.reduces h.resolves).conv
    rw [hsame] at hfound
    exact hfound.conv (hn'.reduces h.resolves).conv.symm

theorem InfersType.sound {moves : List Move} {ctx : Ctx} {t : Term} {rank : Nat} {domain : Core}
    {τ : Ref → Nameless} {Γ : Assignment} : InfersType moves ctx t rank domain →
      (∀ m ∈ moves, m.Hygienic) → ctx.Interprets τ Γ → HasType Γ (domain.meaning τ) (.univ rank)
  | .mk hinfers, hm, h => by
    simp only [List.forall_mem_append, List.forall_mem_cons] at hm
    obtain ⟨hminfers, htype, hterm, -⟩ := hm
    have hfound := hinfers.sound hminfers h
    exact (hfound.term.conv (htype.reduces h.resolves).conv).reduces (hterm.reduces h.resolves)

theorem Ensures.sound {moves : List Move} {ctx : Ctx} {t : Term}
    {expected : Option (Classified Core)} {found : Classified Core} {τ : Ref → Nameless}
    {Γ : Assignment} : Ensures moves ctx t expected found → (∀ m ∈ moves, m.Hygienic) →
      ctx.Interprets τ Γ → (∀ judgement ∈ expected, judgement.Expects τ Γ) → found.Typed τ Γ
  | .infer hinfers, hm, h, _ => hinfers.sound hm h
  | .check hrank hchecks, hm, h, hexpected => by
    obtain ⟨n, hn, htype⟩ := hexpected _ rfl
    obtain rfl := Core.univ.inj (hn.symm.trans hrank)
    exact ⟨hchecks.sound hm h ⟨n, hn, htype⟩, htype⟩

theorem Binds.sound {moves : List Move} {ctx : Ctx} {name : String} {definition body : Term}
    {expected : Option (Classified Core)} {found : Classified Core} {τ : Ref → Nameless}
    {Γ : Assignment} : Binds moves ctx name definition body expected found →
      (∀ m ∈ moves, m.Hygienic) → ctx.Interprets τ Γ →
      (∀ judgement ∈ expected, judgement.Expects τ Γ) →
      found.Typed τ Γ ∧
        ∀ judgement ∈ expected, Conv (judgement.term.meaning τ) (found.type.meaning τ)
  | .mk hfresh hdefinition hbody hfunction, hm, h, hexpected => by
    simp only [List.forall_mem_append, List.forall_mem_cons] at hm
    obtain ⟨⟨hmdefinition, hmbody⟩, htype, hterm, hname, hresult, hweaken, -⟩ := hm
    have hdefined := hdefinition.sound hmdefinition h
    have htypeSteps := htype.reduces h.resolves
    have htermSteps := hterm.reduces h.resolves
    have hsame (judgement : Classified Core) (hmem : judgement ∈ expected) (u : Nameless) :
        judgement.term.meaning (rebind τ name u) = judgement.term.meaning τ := by
      obtain ⟨_, -, hjudgement⟩ := hexpected judgement hmem
      exact Core.meaning_rebind τ (h.not_mem_freeNames hfresh hname hjudgement) u
    have helaborated := hbody.sound hmbody (h.bindValue hfresh hname
      (hdefined.term.conv htypeSteps.conv) (hdefined.ranked.reduces htypeSteps) htermSteps)
      fun judgement hmem ↦ by
        rw [Classified.Expects, hsame judgement hmem]
        exact hexpected judgement hmem
    refine ⟨.letIn h hdefined htermSteps helaborated hresult hweaken hfunction, ?_⟩
    intro judgement hmem
    have hsteps := hresult.reduces (h.resolves.bind htermSteps)
    rw [hbody.type_eq judgement hmem, hsame judgement hmem] at hsteps
    exact hsteps.conv

theorem ChecksLambda.sound {moves : List Move} {ctx : Ctx} {param : String} {body : Term}
    {expected : Classified Core} {rank : Nat} {domain function : Core} {τ : Ref → Nameless}
    {Γ : Assignment} : ChecksLambda moves ctx param body expected rank domain function →
      (∀ m ∈ moves, m.Hygienic) → ctx.Interprets τ Γ → expected.Expects τ Γ →
      HasType Γ (function.meaning τ) (expected.term.meaning τ)
  | .mk name codomain hfresh hbody hfunction, hm, h, hexpected => by
    simp only [List.forall_mem_append, List.forall_mem_cons] at hm
    obtain ⟨hmbody, hnormal, hname, hrange, -⟩ := hm
    obtain ⟨n, hn, hexpected⟩ := hexpected
    obtain ⟨-, hdomain, hcodomain⟩ := h.quantifier hexpected hnormal
    rw [← h.range_eq ⟨n, hexpected⟩ hfresh hname hnormal hrange] at hcodomain
    have hchecked := hbody.sound hmbody (h.bindNamed hfresh hname hdomain) ⟨n, hn, hcodomain⟩
    dsimp only [Classified.withTerm] at hchecked
    rw [h.range_eq ⟨n, hexpected⟩ hfresh hname hnormal hrange] at hchecked
    have hfunctionType := HasType.lambda rank hchecked hfunction
    rw [← Core.meaning_quant] at hfunctionType
    exact hfunctionType.conv (hnormal.reduces h.resolves).conv.symm

theorem Quantifies.sound {moves : List Move} {ctx : Ctx} {polarity : Polarity}
    {binder : Classified String} {body : Term} {found : Classified Core} {τ : Ref → Nameless}
    {Γ : Assignment} : Quantifies moves ctx polarity binder body found →
      (∀ m ∈ moves, m.Hygienic) → ctx.Interprets τ Γ → ctx.isFresh binder.term = true →
      HasType Γ (binder.type.meaning τ) (.univ binder.rank) → found.Typed τ Γ
  | .mk hbody hrank, hm, h, hfresh, hdomain => by
    simp only [List.forall_mem_append, List.forall_mem_cons] at hm
    obtain ⟨hmbody, hquantify, -⟩ := hm
    have hinner := h.bindQuantified hfresh hdomain hquantify
    exact .quantify hdomain (hbody.sound hmbody hinner) hrank _

theorem InfersTelescope.sound {moves : List Move} {ctx : Ctx} {fields : Fields} {rank : Nat}
    {types : Telescope} {τ : Ref → Nameless} {Γ : Assignment} :
    InfersTelescope moves ctx fields rank types → (∀ m ∈ moves, m.Hygienic) → ctx.Interprets τ Γ →
      HasType Γ (types.meaning τ) (.univ rank)
  | .nil, _, _ => .noDeclarations
  | .cons hfresh htype hrest, hm, h => by
    simp only [List.forall_mem_append, List.forall_mem_cons] at hm
    obtain ⟨⟨hmtype, hmrest⟩, hname, -⟩ := hm
    have hdomain := htype.sound hmtype h
    rw [Telescope.meaning_cons]
    exact .declare _ hdomain (hrest.sound hmrest (h.bindNamed hfresh hname hdomain))

theorem InfersMembers.sound {moves : List Move} {outer ctx : Ctx} {earlier : Substitution}
    {fields : Fields} {rank : Nat} {types : Telescope} {members : List Core}
    {τ₀ τ : Ref → Nameless} {Γ : Assignment} :
    InfersMembers moves ctx earlier fields rank types members → (∀ m ∈ moves, m.Hygienic) →
      Members outer ctx earlier τ₀ τ Γ →
      HasType Γ (Core.meaningMembers τ₀ members) (types.meaning τ₀) ∧
        HasType Γ (types.meaning τ₀) (.univ rank)
  | .nil, _, _ => ⟨.noMembers, .noDeclarations⟩
  | .cons hfresh hbody hrest, hm, h => by
    simp only [List.forall_mem_append, List.forall_mem_cons] at hm
    obtain ⟨⟨hmbody, hmrest⟩, htype, hterm, hmember, hname, -⟩ := hm
    have hdefined := hbody.sound hmbody h.interprets
    have htypeSteps := htype.reduces h.resolves
    have hhead := hdefined.term.conv htypeSteps.conv
    have hvalue := hhead.reduces (hterm.reduces h.resolves)
    have hvalueType := hdefined.ranked.reduces htypeSteps
    have hsame := h.meaning_eq hvalueType
    obtain ⟨hmembers, htypes⟩ := hrest.sound hmrest (h.bind hfresh hname
      (by rwa [hsame]) (by rwa [hsame]))
    rw [← h.member_eq hmember] at hhead
    exact h.cons hfresh hname hhead hvalueType hmembers htypes

theorem ChecksMembers.sound {moves : List Move} {outer ctx : Ctx} {earlier : Substitution}
    {fields : Fields} {types : Telescope} {members : List Core} {τ₀ τ : Ref → Nameless}
    {n : Nat} {Γ : Assignment} : ChecksMembers moves ctx earlier fields types members →
      (∀ m ∈ moves, m.Hygienic) → Members outer ctx earlier τ₀ τ Γ →
      HasType Γ (types.meaning τ) (.univ n) →
      HasType Γ (Core.meaningMembers τ₀ members) (types.meaning τ)
  | .nil, _, _, _ => .noMembers
  | @ChecksMembers.cons _ _ name _ _ _ _ rank _ _ _ _ _ _ member types _ hfresh hbody hrest, hm, h,
      htypes => by
    simp only [List.forall_mem_append, List.forall_mem_cons] at hm
    obtain ⟨⟨hmbody, hmrest⟩, hkind, hexpected, hvalueType, hvalue, hmember, hname, -⟩ := hm
    rw [Telescope.meaning_cons] at htypes ⊢
    obtain ⟨_, -, htype, hrestType⟩ := htypes.declare_inv
    have hexpectedSteps := hexpected.reduces h.interprets.resolves
    have hvalueTypeSteps := hvalueType.reduces h.interprets.resolves
    have hvalueSteps := hvalue.reduces h.resolves
    have hexpectedType := htype.reduces hexpectedSteps
    have hchecked := hbody.sound hmbody h.interprets ⟨rank, hkind.univ_inv, hexpectedType⟩
    have hhead := hchecked.conv hexpectedSteps.conv.symm
    have hnext := h.bind hfresh hname
      ((hchecked.conv hvalueTypeSteps.conv).reduces hvalueSteps)
      (hexpectedType.reduces hvalueTypeSteps)
    have hrestSteps := Telescope.reduces_rebind types τ name hvalueSteps
    have hrestType := hrestType.inst hhead
    rw [Telescope.inst_meaning] at hrestType
    have htail := hrest.sound hmrest hnext (hrestType.reduces hrestSteps)
    have hsame := h.member_eq hmember
    rw [← hsame] at hhead
    refine .cons rank name hhead ?_
    change HasType Γ _ (Nameless.inst _ (member.meaning τ₀))
    rw [hsame, Telescope.inst_meaning]
    exact htail.conv hrestSteps.conv.symm

end

end RankedTT
