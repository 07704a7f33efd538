import RankedTT.Proofs.Elaboration
import RankedTT.Proofs.Mirror

/-!
Checks that are known to answer. A check gives an answer if it returns it, up to stamps, from every
state; so it cannot fail, and it can be put together with other checks of which the same is known. A
check that has answered once gives the same answer again, in a context that is the same up to
stamps. What normalization answers is known once the normal form is known.
-/

set_option autoImplicit false
set_option relaxedAutoImplicit false

namespace RankedTT

open Run

/-- Hosts with the same fuel, for terms that do not import anything: no state is told apart. -/
def Mirror.indifferent (σ κ : Type) : Mirror σ σ κ where
  hosts := ⟨fun _ _ ↦ True, fun _ ↦ True⟩
  constants _ := True
  causes _ := True
  unconstrained _ _ _ := trivial

section

variable {σ κ : Type}

/-- The same up to stamps. -/
abbrev SameAs {α : Type} [Likeness α] (x y : α) : Prop := alike (fun _ ↦ True) x y

theorem SameAs.refl {α : Type} [Likeness α] (x : α) : SameAs x x :=
  Likeness.alike_refl (fun _ ↦ trivial) x

theorem Core.sameAs_iff {t t' : Core} : SameAs t t' ↔ t.unstamped = t'.unstamped :=
  Core.alike_iff fun _ ↦ trivial

theorem Core.sameAs_symm {t t' : Core} (h : SameAs t t') : SameAs t' t :=
  sameAs_iff.mpr (sameAs_iff.mp h).symm

theorem Core.sameAs_trans {t t' t'' : Core} (h : SameAs t t') (h' : SameAs t' t'') :
    SameAs t t'' :=
  sameAs_iff.mpr ((sameAs_iff.mp h).trans (sameAs_iff.mp h'))

theorem Classified.sameAs_symm {j k : Classified Core} (h : SameAs j k) : SameAs k j :=
  ⟨h.1.symm, Core.sameAs_symm h.2.1, Core.sameAs_symm h.2.2⟩

theorem Classified.sameAs_trans {j k l : Classified Core} (h : SameAs j k) (h' : SameAs k l) :
    SameAs j l :=
  ⟨h.1.trans h'.1, Core.sameAs_trans h.2.1 h'.2.1, Core.sameAs_trans h.2.2 h'.2.2⟩

/-! ### Checks that are known to answer -/

/-- Started in any state, the check answers `x`, up to stamps. -/
def Check.Gives {α : Type} [Likeness α] (a : Check σ κ α) (x : α) : Prop :=
  ∀ s, ∃ y s', a.Returns s y s' ∧ SameAs x y

namespace Check.Gives

variable {α β : Type} [Likeness α] [Likeness β]

theorem pure {x y : α} (h : SameAs x y) : (Pure.pure y : Check σ κ α).Gives x :=
  fun s ↦ ⟨y, s, rfl, h⟩

theorem bind {a : Check σ κ α} {f : α → Check σ κ β} {x : α} {z : β} (ha : a.Gives x)
    (hf : ∀ y, SameAs x y → (f y).Gives z) : (a >>= f).Gives z := by
  intro s
  obtain ⟨y, s₁, hy, hxy⟩ := ha s
  obtain ⟨w, s₂, hw, hzw⟩ := hf y hxy s₁
  exact ⟨w, s₂, returns_bind_iff.mpr ⟨y, s₁, hy, hw⟩, hzw⟩

theorem yields {a : Check σ κ α} {x : α} (h : a.Gives x) : a.Yields (SameAs x) := by
  intro s y s' hy
  obtain ⟨z, s₁, hz, hxz⟩ := h s
  obtain ⟨rfl, -⟩ := hz.deterministic hy
  exact hxz

/-- What follows a check that answers, answers. -/
theorem of_mirrors {a b : Check σ κ α} (h : (Mirror.indifferent σ κ).Mirrors a b) :
    a.Yields b.Gives := by
  intro s x s₁ hx s'
  obtain ⟨y, s₁', hy, -, hxy⟩ := h.returns hx trivial s' trivial
  exact ⟨y, s₁', hy, hxy⟩

theorem congr {a : Check σ κ Core} {x y : Core} (h : a.Gives x) (hyx : SameAs y x) :
    a.Gives y := by
  intro s
  obtain ⟨z, s', hz, hxz⟩ := h s
  exact ⟨z, s', hz, Core.sameAs_trans hyx hxz⟩

theorem mirror {a b : Check σ κ (Classified Core)} {x : Classified Core} (ha : a.Gives x)
    (h : (Mirror.indifferent σ κ).Mirrors a b) : b.Gives x := by
  intro s
  obtain ⟨y, s', hy, hxy⟩ := ha s
  obtain ⟨z, s₁, hz, hyz⟩ := of_mirrors h s y s' hy s
  exact ⟨z, s₁, hz, Classified.sameAs_trans hxy hyz⟩

theorem record {event : Event} : (Check.record event : Check σ κ Unit).Gives () :=
  fun s ↦ ⟨(), s.record event, rfl, rfl⟩

theorem ofNormalizer {outcome : Outcome BadProjection α} {x y : α} (h : outcome = .ok y)
    (hxy : SameAs x y) : (Check.ofNormalizer outcome : Check σ κ α).Gives x := by
  subst h
  exact pure hxy

theorem stamp {t t' : Core} (h : SameAs t t') : (Check.stamp t' : Check σ κ Core).Gives t := by
  intro s
  refine ⟨_, _, rfl, Core.sameAs_iff.mpr ?_⟩
  rw [Core.sameAs_iff.mp h]
  exact (t'.unstamped_assignStamps s.journal.nextStamp).symm

theorem lambda {param : String} {body body' function : Core}
    (hfunction : function.unstamped = (Core.lam param none body).unstamped)
    (h : SameAs body body') : (Check.lambda param body' : Check σ κ Core).Gives function :=
  .stamp (Core.sameAs_iff.mpr (hfunction.trans (Core.sameAs_iff.mp (.lam param none none h))))

theorem subst {images images' : Substitution} {t t' result : Core}
    (hresult : result.unstamped = (t.subst images).unstamped)
    (himages : AlikeBindings (fun _ ↦ True) images images') (h : SameAs t t') :
    (Check.subst images' t' : Check σ κ Core).Gives result :=
  .stamp (Core.sameAs_iff.mpr
    (hresult.trans (Core.sameAs_iff.mp (Core.Alike.subst h himages))))

theorem inhabitant {rank : Nat} {type t t' : Core} {expected : Classified Core} {cause : TypeError}
    (h : SameAs (⟨rank + 1, .univ rank, type⟩ : Classified Core) expected) (ht : SameAs t t') :
    Check.Gives (κ := κ) (σ := σ) (Run.ofOption (.rejected cause) (expected.inhabitant? t'))
      ⟨rank, type, t⟩ := by
  have hsome := Classified.alike_inhabitant? h ht
  generalize expected.inhabitant? t' = found at hsome ⊢
  cases hsome with
  | some hfound => exact .pure hfound

end Check.Gives

/-! ### Normal forms -/

/-- In the context, `n` is the normal form of `t`, up to stamps. -/
def Ctx.Normalizes (ctx : Ctx) (fuel : Nat) (t n : Core) : Prop :=
  ∃ m, t.normalForm fuel ctx.values = .ok m ∧ SameAs m n

/-- The type is its own normal form. -/
abbrev Ctx.Keeps (ctx : Ctx) (fuel : Nat) (type : Core) : Prop := ctx.Normalizes fuel type type

/-- The normal form of the type is its own normal form. -/
def Ctx.Stabilizes (ctx : Ctx) (fuel : Nat) (type : Core) : Prop :=
  ∃ n, ctx.Normalizes fuel type n ∧ ctx.Keeps fuel n

/-- Functions from the type of a judgement. -/
def Classified.arrow {α : Type} (given : Classified α) (range : Core) : Core :=
  .quantify .universal (given.withTerm anonymous) range

theorem Classified.arrow_sameAs {α : Type} (given : Classified α) {range range' : Core}
    (h : SameAs range range') : SameAs (given.arrow range) (given.arrow range') :=
  .quant _ _ _ (SameAs.refl given.type) h

section NormalForms

variable {fuel : Nat} {ctx : Ctx} {t t' n n' type : Core}

theorem Ctx.Normalizes.unique (h : ctx.Normalizes fuel t n) (h' : ctx.Normalizes fuel t n') :
    SameAs n n' := by
  obtain ⟨m, hm, hn⟩ := h
  obtain ⟨m', hm', hn'⟩ := h'
  obtain rfl := Except.ok.inj (hm.symm.trans hm')
  exact Core.sameAs_trans (Core.sameAs_symm hn) hn'

theorem Ctx.Normalizes.congr {ctx' : Ctx} (hctx : SameAs ctx ctx') (h : ctx.Normalizes fuel t n)
    (ht : SameAs t t') (hn : SameAs n n') : ctx'.Normalizes fuel t' n' := by
  obtain ⟨m, hm, hmn⟩ := h
  obtain ⟨m', hm', hmm'⟩ := Core.Alike.normalForm ht (Ctx.alike_values hctx) hm
  exact ⟨m', hm', Core.sameAs_trans (Core.sameAs_symm hmm') (Core.sameAs_trans hmn hn)⟩

/-- The free names of a normal form are those of what the names of the term stand for. -/
theorem Ctx.Normalizes.mem_freeNames (h : ctx.Normalizes fuel t n) {y : String}
    (hy : y ∈ n.freeNames) : ∃ x ∈ t.freeNames, y ∈ (NormEnv.image ctx.values x).freeNames := by
  obtain ⟨m, hm, hsame⟩ := h
  obtain ⟨_, hm⟩ := Core.normalizes_of_normalForm hm
  rw [← Core.Alike.freeNames_eq hsame] at hy
  exact hm.mem_freeNames hy

/-- A universe is its own normal form, where there is fuel. -/
theorem Ctx.Normalizes.keeps_univ (h : ctx.Normalizes fuel t n) (rank : Nat) :
    ctx.Keeps fuel (.univ rank) := by
  obtain ⟨m, hm, -⟩ := h
  cases fuel with
  | zero => cases hm
  | succ fuel => exact ⟨_, rfl, SameAs.refl _⟩

/-- The domain of a quantifier is normalized first. -/
theorem Ctx.Keeps.domain {polarity : Polarity} {rank : Nat} {domain codomain : Core}
    {name : String} (h : ctx.Keeps fuel (.quant polarity rank domain name codomain)) :
    ctx.Keeps fuel domain := by
  obtain ⟨n, hn, hsame⟩ := h
  obtain ⟨c, hreturns⟩ := outcome_eq_ok_iff.mp hn
  cases fuel with
  | zero => exact absurd hreturns not_returns_outOfFuel
  | succ fuel =>
    simp only [Core.normalize] at hreturns
    obtain ⟨domain', c', hdomain, hreturns⟩ := returns_bind_iff.mp hreturns
    obtain ⟨⟨name', env⟩, c₁, hbind, hreturns⟩ := returns_bind_iff.mp hreturns
    obtain ⟨codomain', c₂, hcodomain, hreturns⟩ := returns_bind_iff.mp hreturns
    obtain ⟨rfl, -⟩ := returns_pure_iff.mp hreturns
    cases hsame with
    | quant _ _ _ hsame =>
      refine ⟨domain', outcome_eq_ok_iff.mpr ⟨c', ?_⟩, hsame⟩
      exact hdomain.refine (domain.normalize_refines_succ fuel _)

theorem Ctx.Stabilizes.keeps (h : ctx.Stabilizes fuel type) (hn : ctx.Normalizes fuel type n) :
    ctx.Keeps fuel n := by
  obtain ⟨m, hm, hkeeps⟩ := h
  have hmn := hm.unique hn
  exact hkeeps.congr (SameAs.refl ctx) hmn hmn

end NormalForms

section Steps

variable {fuel : Nat} {ctx ctx' : Ctx} (hctx : SameAs ctx ctx')

include hctx

theorem Ctx.Normalizes.gives {t t' n : Core} (h : ctx.Normalizes fuel t n) (ht : SameAs t t') :
    (Check.normalize fuel ctx' t' : Check σ κ Core).Gives n := by
  obtain ⟨m, hm, hmn⟩ := h.congr hctx ht (SameAs.refl n)
  exact (Check.Gives.ofNormalizer hm (Core.sameAs_symm hmn)).bind fun _ hm ↦ .stamp hm

theorem Check.gives_normalized {judgement judgement' value : Classified Core}
    (h : SameAs judgement judgement') (hrank : value.rank = judgement.rank)
    (htype : ctx.Normalizes fuel judgement.type value.type)
    (hterm : ctx.Normalizes fuel judgement.term value.term) :
    (Check.normalized fuel ctx' judgement' : Check σ κ (Classified Core)).Gives value := by
  refine (htype.gives hctx h.2.1).bind fun type' htype' ↦ ?_
  refine (hterm.gives hctx h.2.2).bind fun term' hterm' ↦ ?_
  exact .pure ⟨hrank.trans h.1, htype', hterm'⟩

theorem Check.gives_ensureFresh {name : String} (h : ctx.isFresh name = true) :
    (Check.ensureFresh ctx' name : Check σ κ Unit).Gives () := by
  rw [Check.ensureFresh, ← Ctx.isFresh_eq hctx, if_pos h]
  exact .pure rfl

/-- Types with the same normal form are equal. -/
theorem Check.gives_convert {α : Type} {judgement : Classified α} {target n : Core}
    (hn : ctx.Normalizes fuel judgement.type n) (htarget : ctx.Normalizes fuel target n)
    {found expected : Classified Core} (hfound : SameAs judgement.typeOf found)
    (hexpected : SameAs (judgement.typeOf.withTerm target) expected) :
    (Check.convert fuel ctx'.values found expected : Check σ κ Unit).Gives () := by
  obtain ⟨k, hk, -⟩ := hn.keeps_univ judgement.rank
  obtain ⟨m, hm, hmn⟩ := hn
  obtain ⟨m', hm', hmn'⟩ := htarget
  have hself (t : Core) : t.alphaEq t = true := (t.alphaEq_iff t).mpr rfl
  have halpha : m.alphaEq m' = true := by
    have hsame := Core.sameAs_trans hmn (Core.sameAs_symm hmn')
    rw [← (SameAs.refl m : m.Alike _ m).alphaEq_eq hsame]
    exact hself m
  have hequal : Classified.isEqualTo fuel ctx.values judgement.typeOf
      (judgement.typeOf.withTerm target) = .ok true := by
    simp [Classified.isEqualTo, Classified.typeOf, Classified.withTerm, hk, hm, hm', hself, halpha,
      Bind.bind, Except.bind, Pure.pure, Except.pure]
  have hequal' := Classified.isEqualTo_alike (Ctx.alike_values hctx) hfound hexpected hequal
  rw [Check.convert, Classified.mismatch?_eq_none_iff.mpr hequal']
  exact Check.Gives.record.bind fun _ _ ↦ .pure rfl

end Steps

/-! ### What was answered is answered again -/

section Answers

open Mirror

variable {fuel : Nat} {ctx : Ctx} {rule : Judged σ κ}

theorem Check.yields_normalizes (t : Core) :
    (Check.normalize fuel ctx t : Check σ κ Core).Yields (ctx.Normalizes fuel t) :=
  (Check.normalize_computed t).mono fun _ ⟨m, hm, hn⟩ ↦ ⟨m, hm, Core.sameAs_iff.mpr hn.symm⟩

theorem Check.normalized_normalizes (judgement : Classified Core) :
    (Check.normalized fuel ctx judgement : Check σ κ (Classified Core)).Yields fun value ↦
      value.rank = judgement.rank ∧ ctx.Normalizes fuel judgement.type value.type ∧
        ctx.Normalizes fuel judgement.term value.term := by
  refine (Check.yields_normalizes judgement.type).bind fun type htype ↦ ?_
  exact (Check.yields_normalizes judgement.term).bind fun term hterm ↦ .pure ⟨rfl, htype, hterm⟩

theorem Judged.yields_logged_iff {P : Classified Core → Prop} :
    (rule.logged.infer ctx).Yields P ↔ (rule.infer ctx).Yields P := by
  constructor
  · intro h s judgement s' hjudgement
    exact h s judgement _ (returns_bind_iff.mpr ⟨judgement, s', hjudgement, rfl⟩)
  · intro h
    exact h.bind fun judgement hjudgement ↦ .bind_any fun _ ↦ .pure hjudgement

/-- Checking against the type that `expected` is about gives `t`. -/
def Judged.Checks (rule : Judged σ κ) (ctx : Ctx) (expected : Classified Core) (t : Core) : Prop :=
  ∀ {ctx' : Ctx} {expected' : Classified Core}, SameAs ctx ctx' → SameAs expected expected' →
    (rule.check ctx' expected').Gives t

theorem Judged.Mirrored.infer_gives (h : rule.Mirrored (.indifferent σ κ) rule) :
    (rule.infer ctx).Yields fun judgement ↦ ∀ {ctx' : Ctx}, SameAs ctx ctx' →
      (rule.infer ctx').Gives judgement :=
  fun _ _ _ hjudgement _ hctx ↦ Check.Gives.of_mirrors (h.infer hctx) _ _ _ hjudgement

theorem Judged.Mirrored.checks (h : rule.Mirrored (.indifferent σ κ) rule)
    (expected : Classified Core) :
    (rule.check ctx expected).Yields (rule.Checks ctx expected) :=
  fun _ _ _ ht _ _ hctx hexpected ↦
    Check.Gives.of_mirrors (h.check hctx hexpected) _ _ _ ht

theorem Judged.Mirrored.declare_gives (h : rule.Mirrored (.indifferent σ κ) rule) (name : String) :
    (rule.declare fuel ctx name).Yields fun declared ↦ ∀ {ctx' : Ctx}, SameAs ctx ctx' →
      (rule.declare fuel ctx' name).Gives declared :=
  fun _ _ _ hdeclared _ hctx ↦ Check.Gives.of_mirrors (h.declare hctx name) _ _ _ hdeclared

theorem Judged.declare_term (rule : Judged σ κ) (ctx : Ctx) (name : String) :
    (rule.declare fuel ctx name).Yields fun declared ↦ declared.term = name := by
  refine .bind_any fun found ↦ .bind_any fun judgement ↦ .ofOption fun declared hdeclared ↦ ?_
  obtain ⟨_, -, rfl⟩ := Classified.inhabitant?_eq_some_iff.mp hdeclared
  rfl

end Answers

end

end RankedTT
