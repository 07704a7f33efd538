import RankedTT.Proofs.Derivation
import RankedTT.Proofs.Faults
import RankedTT.Proofs.Hygiene
import RankedTT.Proofs.Scope

/-!
Hygienic moves and the contexts they are made in. A move is hygienic if no name changes its meaning:
normalizing only reduces, substituting puts terms in for free names and nothing else, and what goes
below an anonymous binder does not mention the anonymous name. A normalization that was computed and
captures nothing is hygienic.

A context is interpreted by a valuation of its names: a declared name stands for a variable, and a
let-bound name for its definition. Names that are not bound stand for free names that nobody knows,
so a typed term mentions bound names only.
-/

set_option autoImplicit false
set_option relaxedAutoImplicit false

namespace RankedTT

open Nameless

/-! ### Hygienic moves -/

mutual

theorem Core.nameless_unstamped (scope : List String) :
    (t : Core) → t.unstamped.nameless scope = t.nameless scope
  | .univ _ | .var _ | .const _ => rfl
  | .quant _ _ domain name codomain => by
    simp [Core.unstamped, Core.nameless, domain.nameless_unstamped scope,
      codomain.nameless_unstamped (name :: scope)]
  | .signature members => by
    simp [Core.unstamped, Core.nameless, members.nameless_unstamped scope]
  | .lam param _ body => by
    simp [Core.unstamped, Core.nameless, body.nameless_unstamped (param :: scope)]
  | .record members => by
    simp [Core.unstamped, Core.nameless, Core.namelessMembers_unstampedMembers scope members]
  | .app _ type operator operand => by
    simp [Core.unstamped, Core.nameless, type.nameless_unstamped scope,
      operator.nameless_unstamped scope, operand.nameless_unstamped scope]
  | .proj _ type operator _ => by
    simp [Core.unstamped, Core.nameless, type.nameless_unstamped scope,
      operator.nameless_unstamped scope]

theorem Telescope.nameless_unstamped (scope : List String) :
    (t : Telescope) → t.unstamped.nameless scope = t.nameless scope
  | .nil => rfl
  | .cons _ type name rest => by
    simp [Telescope.unstamped, Telescope.nameless, type.nameless_unstamped scope,
      rest.nameless_unstamped (name :: scope)]

theorem Core.namelessMembers_unstampedMembers (scope : List String) :
    (ts : List Core) →
      Core.namelessMembers scope (Core.unstampedMembers ts) = Core.namelessMembers scope ts
  | [] => rfl
  | m :: ms => by
    simp [Core.unstampedMembers, Core.namelessMembers, m.nameless_unstamped scope,
      Core.namelessMembers_unstampedMembers scope ms]

end

theorem Core.meaning_of_unstamped {s t : Core} (h : s.unstamped = t.unstamped)
    (τ : Ref → Nameless) : s.meaning τ = t.meaning τ := by
  rw [meaning, meaning, ← s.nameless_unstamped, h, t.nameless_unstamped]

/-- No name changes its meaning. -/
def Move.Hygienic : Move → Prop
  | normalize ctx t result =>
    Reduces (t.meaning (named (NormEnv.image ctx.values))) (result.nameless [])
  | substitute images t result => result.IsInstanceOf t images
  | name x => x ≠ anonymous
  | quantify ctx x => x = anonymous → ∀ y judgement, Env.get? ctx.vars y = some judgement →
      anonymous ∉ judgement.type.freeNames ∧
        (y ≠ anonymous → anonymous ∉ judgement.term.freeNames)
  | weaken t => anonymous ∉ t.freeNames

/-- A normalization that was computed and captures nothing. -/
theorem Move.Computed.hygienic {fuel : Nat} {ctx : Ctx} {t result : Core}
    (h : (Move.normalize ctx t result).Computed fuel)
    (hfree : (Call.core ctx.values t 0).CaptureFree) : (Move.normalize ctx t result).Hygienic := by
  obtain ⟨n, hn, hresult⟩ := h
  have hsteps := Core.reduces_normalForm hn hfree
  rw [← n.nameless_unstamped, ← hresult, result.nameless_unstamped] at hsteps
  exact hsteps

/-- The names of `ctx` stand for terms that reduce to their values, where the names in the values
stand for what `υ` says. -/
def Ctx.Resolves (ctx : Ctx) (τ υ : Ref → Nameless) : Prop :=
  ∀ x, Reduces (τ (.free x)) ((NormEnv.image ctx.values x).meaning υ)

theorem Move.Hygienic.reduces {ctx : Ctx} {t result : Core}
    (h : (Move.normalize ctx t result).Hygienic) {τ υ : Ref → Nameless}
    (hτ : ctx.Resolves τ υ) : Reduces (t.meaning τ) (result.meaning υ) := by
  let τ' : Ref → Nameless := Ref.rec (fun i ↦ υ (.bound i)) fun x ↦ τ (.free x)
  have hfree : t.meaning τ = t.meaning τ' := Core.meaning_congr fun _ _ ↦ rfl
  have hvalues : Reduces (t.meaning τ') (t.meaning (through (NormEnv.image ctx.values) υ)) := by
    refine .subst_right _ fun v ↦ ?_
    cases v with
    | free x => exact hτ x
    | bound i => exact .refl
  rw [hfree]
  refine hvalues.trans ?_
  rw [← t.subst_meaning_named]
  exact h.subst υ

/-! ### Scoping by typing -/

theorem Nameless.Faulty.shift {t : Nameless} (h : Faulty t) : Faulty t.shift := by
  rw [Nameless.shift, rename_eq_subst]
  exact h.subst fun _ ↦ rfl

/-- A name that stands for a faulty term does so below a binder of another name. -/
theorem Nameless.Faulty.lift_ofName {τ : Ref → Nameless} {scope : List String} {x name : String}
    {xs : List String} (hx : x ∈ xs.filter (· != name)) (h : Faulty (τ (.ofName scope x))) :
    x ∈ xs ∧ Faulty (lift τ (.ofName (name :: scope) x)) := by
  obtain ⟨hmem, hne⟩ := List.mem_filter.mp hx
  rw [Ref.ofName_cons_of_ne (by simpa using hne), lift_rename_succ]
  exact ⟨hmem, h.shift⟩

mutual

theorem Core.faulty_of_mem {τ : Ref → Nameless} {scope : List String} {x : String} :
    (t : Core) → x ∈ t.freeNames → Faulty (τ (.ofName scope x)) →
      Faulty ((t.nameless scope).subst τ)
  | .univ _, hx, _ | .const _, hx, _ => by simp [Core.freeNames] at hx
  | .var y, hx, h => by
    obtain rfl : x = y := by simpa [Core.freeNames] using hx
    exact h
  | .quant _ _ domain name codomain, hx, h => by
    rcases List.mem_append.mp hx with hx | hx
    · exact .domain _ _ _ (domain.faulty_of_mem hx h)
    · obtain ⟨hx, h⟩ := h.lift_ofName hx
      exact .codomain _ _ _ (codomain.faulty_of_mem hx h)
  | .signature members, hx, h => .signature (members.faulty_of_mem hx h)
  | .lam param _ body, hx, h => by
    obtain ⟨hx, h⟩ := h.lift_ofName hx
    exact .body (body.faulty_of_mem hx h)
  | .record members, hx, h => .record (Core.faulty_of_mem_members members hx h)
  | .app _ type operator operand, hx, h => by
    rcases List.mem_append.mp hx with hx | hx
    · rcases List.mem_append.mp hx with hx | hx
      · exact .appType _ _ _ (type.faulty_of_mem hx h)
      · exact .operator _ _ _ (operator.faulty_of_mem hx h)
    · exact .operand _ _ _ (operand.faulty_of_mem hx h)
  | .proj _ type operator _, hx, h => by
    rcases List.mem_append.mp hx with hx | hx
    · exact .projType _ _ _ (type.faulty_of_mem hx h)
    · exact .projected _ _ _ (operator.faulty_of_mem hx h)

theorem Telescope.faulty_of_mem {τ : Ref → Nameless} {scope : List String} {x : String} :
    (t : Telescope) → x ∈ t.freeNames → Faulty (τ (.ofName scope x)) →
      Faulty ((t.nameless scope).subst τ)
  | .nil, hx, _ => by simp [Telescope.freeNames] at hx
  | .cons _ type name rest, hx, h => by
    rcases List.mem_append.mp hx with hx | hx
    · exact .declared _ _ _ (type.faulty_of_mem hx h)
    · obtain ⟨hx, h⟩ := h.lift_ofName hx
      exact .rest _ _ _ (rest.faulty_of_mem hx h)

theorem Core.faulty_of_mem_members {τ : Ref → Nameless} {scope : List String} {x : String} :
    (ts : List Core) → x ∈ Core.freeNamesMembers ts → Faulty (τ (.ofName scope x)) →
      Faulty ((Core.namelessMembers scope ts).subst τ)
  | [], hx, _ => by simp [Core.freeNamesMembers] at hx
  | m :: ms, hx, h => by
    rcases List.mem_append.mp hx with hx | hx
    · exact .head _ (m.faulty_of_mem hx h)
    · exact .tail _ (Core.faulty_of_mem_members ms hx h)

end

/-! ### Contexts -/

/-- A name that the value of `y` does not mention, if it has one, is not in what `y` stands for. -/
theorem Ctx.not_mem_freeNames_image_values (ctx : Ctx) {name y : String} (hy : y ≠ name)
    (hvalue : ∀ judgement, Env.get? ctx.vars y = some judgement →
      name ∉ judgement.term.freeNames) :
    name ∉ (NormEnv.image ctx.values y).freeNames := by
  cases hget : Env.get? ctx.vars y with
  | none =>
    rw [Ctx.image_values_of_unbound hget]
    simpa [Core.freeNames] using Ne.symm hy
  | some judgement =>
    rw [Ctx.image_values_of_get? hget]
    exact hvalue judgement hget

/-- The names of a context stand for terms of their types that reduce to their values, and these
types have the ranks that are recorded. -/
structure Ctx.Interprets (ctx : Ctx) (τ : Ref → Nameless) (Γ : Assignment) : Prop where
  resolves : ctx.Resolves τ τ
  typed : ∀ x judgement, Env.get? ctx.vars x = some judgement →
    HasType Γ (τ (.free x)) (judgement.type.meaning τ) ∧
      HasType Γ (judgement.type.meaning τ) (.univ judgement.rank)
  unbound : ∀ x, Env.get? ctx.vars x = none → Faulty (τ (.free x))
  base : ∀ x ∈ baseTypes, τ (.free x) = .var (.free x)

namespace Ctx.Interprets

variable {ctx : Ctx} {τ : Ref → Nameless} {Γ : Assignment}

/-- A typed term mentions only names that are bound. -/
theorem maps_of_hasType (h : ctx.Interprets τ Γ) {t : Core} {T : Nameless}
    (ht : HasType Γ (t.meaning τ) T) {x : String} (hx : x ∈ t.freeNames) : ctx.maps x = true := by
  by_contra hmaps
  have hget : Env.get? ctx.vars x = none := by simpa [Ctx.maps, Env.maps] using hmaps
  exact ht.not_faulty (t.faulty_of_mem hx (h.unbound x hget))

theorem not_mem_freeNames (h : ctx.Interprets τ Γ) {name : String}
    (hfresh : ctx.isFresh name = true) (hname : name ≠ anonymous) {t : Core} {T : Nameless}
    (ht : HasType Γ (t.meaning τ) T) : name ∉ t.freeNames :=
  fun hmem ↦ Ctx.ne_of_isFresh hfresh hname (h.maps_of_hasType ht hmem) rfl

/-- A base type is bound and no other name is put in its place. -/
theorem ne_of_base (h : ctx.Interprets τ Γ) {name : String} (hfresh : ctx.isFresh name = true)
    {x : String} (hx : x ∈ baseTypes) : x ≠ name := by
  rintro rfl
  have hfault (hget : Env.get? ctx.vars x = none) : False := by
    have := h.unbound x hget
    rw [h.base x hx] at this
    cases this with
    | unbound hx' => exact hx' hx
  have hmaps : ctx.maps x = true := by
    by_contra hmaps
    exact hfault (by simpa [Ctx.maps, Env.maps] using hmaps)
  have hanonymous : x = anonymous := by simpa [Ctx.isFresh, hmaps] using hfresh
  subst hanonymous
  simp [baseTypes, anonymous] at hx

/-- A fresh name is mentioned nowhere in the context. -/
theorem unused (h : ctx.Interprets τ Γ) {name : String} (hfresh : ctx.isFresh name = true)
    (hname : name ≠ anonymous) {y : String} {judgement : Classified Core}
    (hget : Env.get? ctx.vars y = some judgement) :
    name ∉ judgement.type.freeNames ∧ name ∉ judgement.term.freeNames := by
  obtain ⟨hterm, htype⟩ := h.typed y judgement hget
  have hvalue := hterm.reduces (h.resolves y)
  rw [Ctx.image_values_of_get? hget] at hvalue
  exact ⟨h.not_mem_freeNames hfresh hname htype, h.not_mem_freeNames hfresh hname hvalue⟩

/-- A name is declared that the context mentions nowhere, other than as itself. -/
theorem bindDeclared (h : ctx.Interprets τ Γ) {declared : Classified String}
    (hfresh : ctx.isFresh declared.term = true)
    (hdomain : HasType Γ (declared.type.meaning τ) (.univ declared.rank))
    (hunused : ∀ y judgement, Env.get? (ctx.bindDeclared declared).vars y = some judgement →
      declared.term ∉ judgement.type.freeNames ∧
        (y ≠ declared.term → declared.term ∉ judgement.term.freeNames)) :
    (ctx.bindDeclared declared).Interprets (under τ declared.term)
      (Γ.extend (declared.type.meaning τ)) where
  resolves y := by
    by_cases hy : y = declared.term
    · subst hy
      simp only [Ctx.bindDeclared, Ctx.image_values_bind, if_true]
      exact .refl
    · have hvalue := ctx.not_mem_freeNames_image_values hy fun judgement hget ↦
        (hunused y judgement ((Env.get?_push_of_ne _ _ hy).trans hget)).2 hy
      simp only [Ctx.bindDeclared, Ctx.image_values_bind, hy, if_false]
      rw [under_of_ne τ _ hy, Core.meaning_under τ hvalue]
      exact (h.resolves y).rename _
  typed y judgement hget := by
    have htype := (hunused y judgement hget).1
    rw [Core.meaning_under τ htype]
    by_cases hy : y = declared.term
    · subst hy
      obtain rfl : declared.asVariable = judgement :=
        Option.some.inj ((Env.get?_push_self _ _ _).symm.trans hget)
      rw [under_self]
      exact ⟨.var rfl, hdomain.shift _⟩
    · obtain ⟨hterm, htype⟩ := h.typed y judgement ((Env.get?_push_of_ne _ _ hy).symm.trans hget)
      rw [under_of_ne τ _ hy]
      exact ⟨hterm.shift _, htype.shift _⟩
  unbound y hget := by
    have hy : y ≠ declared.term := by
      rintro rfl
      cases (Env.get?_push_self _ _ _).symm.trans hget
    rw [under_of_ne τ _ hy]
    exact (h.unbound y ((Env.get?_push_of_ne _ _ hy).symm.trans hget)).shift
  base y hy := by
    rw [under_of_ne τ _ (h.ne_of_base hfresh hy), h.base y hy]
    rfl

/-- A name of the program is declared. -/
theorem bindNamed (h : ctx.Interprets τ Γ) {name : String} (hfresh : ctx.isFresh name = true)
    (hname : name ≠ anonymous) {rank : Nat} {domain : Core}
    (hdomain : HasType Γ (domain.meaning τ) (.univ rank)) :
    (ctx.bindDeclared ⟨rank, domain, name⟩).Interprets (under τ name)
      (Γ.extend (domain.meaning τ)) := by
  refine h.bindDeclared hfresh hdomain fun y judgement hget ↦ ?_
  by_cases hy : y = name
  · subst hy
    obtain rfl := Option.some.inj ((Env.get?_push_self _ _ _).symm.trans hget)
    exact ⟨h.not_mem_freeNames hfresh hname hdomain, fun hne ↦ absurd rfl hne⟩
  · have := h.unused hfresh hname ((Env.get?_push_of_ne _ _ hy).symm.trans hget)
    exact ⟨this.1, fun _ ↦ this.2⟩

/-- A name is bound to a value, to which the term that it stands for reduces. -/
theorem bindValue (h : ctx.Interprets τ Γ) {name : String} (hfresh : ctx.isFresh name = true)
    (hname : name ≠ anonymous) {rank : Nat} {type term : Core} {u : Nameless}
    (hu : HasType Γ u (type.meaning τ)) (htype : HasType Γ (type.meaning τ) (.univ rank))
    (hterm : Reduces u (term.meaning τ)) :
    (ctx.bind name ⟨rank, type, term⟩).Interprets (rebind τ name u) Γ where
  resolves y := by
    rw [Ctx.image_values_bind]
    by_cases hy : y = name
    · subst hy
      have hvalue := h.not_mem_freeNames hfresh hname (hu.reduces hterm)
      rw [if_pos rfl, rebind_self, Core.meaning_rebind τ hvalue]
      exact hterm
    · have hvalue := ctx.not_mem_freeNames_image_values hy fun _ hget ↦
        (h.unused hfresh hname hget).2
      rw [if_neg hy, rebind_of_ne τ name u hy, Core.meaning_rebind τ hvalue]
      exact h.resolves y
  typed y judgement hget := by
    by_cases hy : y = name
    · subst hy
      obtain rfl := Option.some.inj ((Env.get?_push_self _ _ _).symm.trans hget)
      rw [rebind_self, Core.meaning_rebind τ (h.not_mem_freeNames hfresh hname htype)]
      exact ⟨hu, htype⟩
    · have hget := (Env.get?_push_of_ne _ _ hy).symm.trans hget
      rw [rebind_of_ne τ name u hy, Core.meaning_rebind τ (h.unused hfresh hname hget).1]
      exact h.typed y judgement hget
  unbound y hget := by
    have hy : y ≠ name := by
      rintro rfl
      cases (Env.get?_push_self _ _ _).symm.trans hget
    rw [rebind_of_ne τ name u hy]
    exact h.unbound y ((Env.get?_push_of_ne _ _ hy).symm.trans hget)
  base y hy := by
    rw [rebind_of_ne τ name u (h.ne_of_base hfresh hy), h.base y hy]

/-- The name of a quantifier is declared, which may be the anonymous one. -/
theorem bindQuantified (h : ctx.Interprets τ Γ) {binder : Classified String}
    (hfresh : ctx.isFresh binder.term = true)
    (hdomain : HasType Γ (binder.type.meaning τ) (.univ binder.rank))
    (hmove : (Move.quantify (ctx.bindDeclared binder) binder.term).Hygienic) :
    (ctx.bindDeclared binder).Interprets (under τ binder.term)
      (Γ.extend (binder.type.meaning τ)) := by
  by_cases hname : binder.term = anonymous
  · refine h.bindDeclared hfresh hdomain fun y judgement hget ↦ ?_
    rw [hname]
    exact hmove hname y judgement hget
  · exact h.bindNamed hfresh hname hdomain

end Ctx.Interprets

theorem Ctx.Resolves.bind {ctx : Ctx} {τ υ : Ref → Nameless} (h : ctx.Resolves τ υ) {name : String}
    {judgement : Classified Core} {u : Nameless} (hu : Reduces u (judgement.term.meaning υ)) :
    (ctx.bind name judgement).Resolves (rebind τ name u) υ := by
  intro x
  rw [Ctx.image_values_bind]
  by_cases hx : x = name
  · subst hx
    rw [if_pos rfl, rebind_self]
    exact hu
  · rw [if_neg hx, rebind_of_ne τ name u hx]
    exact h x

end RankedTT
