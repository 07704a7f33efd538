import RankedTT.Proofs.AnonymousScope
import RankedTT.Proofs.ClosedValues
import RankedTT.Proofs.EqualPrograms
import RankedTT.Proofs.NestedLets

/-!
Sessions in which all names are defined by programs of literals, without modules. No program of such
a session is given an import, so that it is elaborated as in a host that answers none. What a name
stands for in the typing rules mentions names only that stand for themselves: the value of a program
is a constant, and a type is kept in normal form.
-/

set_option autoImplicit false
set_option relaxedAutoImplicit false

namespace RankedTT

open Run

/-- In normal form, a judgement is about names of the context still. -/
theorem Classified.CoveredBy.normalized {σ κ : Type} {fuel : Nat} {ctx : Ctx} (hctx : ctx.Whole)
    {judgement : Classified Core} (h : judgement.CoveredBy ctx) :
    (Check.normalized fuel ctx judgement : Check σ κ (Classified Core)).Yields
      fun value ↦ value.CoveredBy ctx := by
  have hnormal {t n : Core} (ht : ctx.Covers t) (hn : ctx.Normalizes fuel t n) : ctx.Covers n := by
    intro y hy
    obtain ⟨x, hx, hy⟩ := hn.mem_freeNames hy
    exact hctx.resolvesWithin x (ht x hx) y hy
  exact (Check.normalized_normalizes judgement).mono fun value ⟨_, htype, hterm⟩ ↦
    ⟨hnormal h.1 htype, hnormal h.2 hterm⟩

namespace Session

variable {fuel : Nat} {s : Progress Session} {program : Term}

/-! ### No modules -/

/-- There is no module to load, and none is loaded. -/
structure Bare (session : Session) : Prop where
  source : session.source = []
  modules : session.modules = .empty

/-- A request has no answer. -/
theorem Bare.start_loadModule {session : Session} (h : session.Bare) (fuel depth : Nat)
    (name : String) {s : Progress Modules} (hs : s.host = .empty) :
    ∃ stop s₁, (loadModule fuel session depth name).start s = (.error stop, s₁) ∧
      s₁.host = .empty := by
  cases depth with
  | zero => exact ⟨_, _, rfl, hs⟩
  | succ depth =>
    obtain ⟨_, journal⟩ := s
    obtain rfl := hs
    have hread : session.source.read? name = none := by
      rw [h.source]
      rfl
    rw [Upkeep.start_loadModule, hread]
    exact ⟨_, _, rfl, rfl⟩

/-- Loading where there is no module, beside a host that answers no request. -/
def unanswered : Mirror Modules Unit SessionError where
  hosts := ⟨fun s _ ↦ s = .empty, fun _ ↦ True⟩
  constants _ := True
  causes _ := True
  unconstrained _ h := absurd trivial h

section Bare

variable (hs : s.host.Bare)

include hs

/-- A program is elaborated as if it was given no import. -/
theorem Bare.answers {c : Classified Core} (h : checked fuel program s = .ok c) :
    ∃ d, (program.infer (Host.withoutImports fuel) ⟨s.host.checkerEnv⟩).Answers d ∧
      SameAs c d := by
  have hhost : Host.Mirrored unanswered
      ⟨fuel, loadModule fuel s.host s.host.loadDepth⟩ (Host.withoutImports fuel) := by
    refine ⟨rfl, fun name s₁ _ ↦ ⟨trivial, fun _ hs₁ ↦ ?_⟩⟩
    obtain ⟨stop, s₂, hstart, -⟩ := hs.start_loadModule fuel s.host.loadDepth name hs₁
    change EndsWith _ _ _ _ _ ((loadModule fuel s.host s.host.loadDepth name).start s₁)
    rw [hstart]
    exact fun _ _ ↦ trivial
  obtain ⟨s₁, hc⟩ := outcome_eq_ok_iff.mp h
  have hmirrors := checkProgram_mirrors hhost.fuel
    (Likeness.alike_refl (S := fun _ ↦ True) (fun _ ↦ trivial) s.host.checkerEnv) (t := program)
    fun m _ ↦ hhost.known (fun _ ↦ trivial) m
  obtain ⟨d, s₂, hd, -, hsame⟩ := hmirrors.returns hc trivial ⟨(), .empty⟩ hs.modules
  exact ⟨d, ⟨_, _, hd⟩, hsame⟩

theorem Bare.withLoaded (fuel : Nat) (program : Term) :
    Session.withLoaded fuel program s = s.host := by
  have hkeeps : Keeps (fun progress : Progress Modules ↦ progress.host = .empty)
      (s.host.runTerm fuel program) := by
    refine run_keeps (I := (· = Modules.empty)) (fun name s₁ hs₁ ↦ ?_) program
    obtain ⟨stop, s₂, hstart, hs₂⟩ := hs.start_loadModule fuel s.host.loadDepth name hs₁
    rw [hstart]
    exact hs₂
  have hmodules : (ran fuel program s).2.host = s.host.modules :=
    (hkeeps ⟨s.host.modules, s.journal⟩ hs.modules).trans hs.modules.symm
  rw [Session.withLoaded, hmodules]

end Bare

/-! ### Names that are defined -/

/-- There are no modules, all that the typing rules see is about names of the session, and the
values of names mention names only that stand for themselves. -/
structure Grounded (session : Session) : Prop where
  bare : session.Bare
  names : ∀ x, session.checkerEnv.maps x = true → session.env.maps x = true
  whole : (Ctx.mk session.checkerEnv).Whole
  settled : ∀ x, ∀ y ∈ (NormEnv.image (Ctx.mk session.checkerEnv).values x).freeNames,
    NormEnv.image (Ctx.mk session.checkerEnv).values y = .var y
  anonymous : ∃ v, NormEnv.image (Ctx.mk session.checkerEnv).values anonymous = .const v

theorem Grounded.isUnfolded {session : Session} (h : session.Grounded) :
    (Ctx.mk session.checkerEnv).IsUnfolded where
  settled := h.settled
  named x hx := by
    obtain ⟨v, hv⟩ := h.anonymous
    cases (h.settled x _ hx).symm.trans hv

theorem grounded_withPrelude : Grounded withPrelude where
  bare := ⟨rfl, rfl⟩
  names x hx := by
    change Env.maps Prelude.env x = true
    simpa [withPrelude, Prelude.checkerEnv, Env.maps, Env.get?_mapBindings] using hx
  whole := by
    have hcovers : ∀ entry ∈ Prelude.checkerEnv, ∀ t ∈ [entry.2.type, entry.2.term],
        ∀ x ∈ t.freeNames, (Ctx.mk Prelude.checkerEnv).maps x = true := by
      decide +kernel
    refine ⟨by decide +kernel, by decide +kernel, by decide +kernel, fun x judgement hget ↦ ?_⟩
    obtain ⟨_, _, henv, -⟩ := List.lookup_eq_some_iff.mp hget
    have hentry : (x, judgement) ∈ Prelude.checkerEnv := by simp_all [withPrelude]
    exact ⟨hcovers _ hentry _ (by simp), hcovers _ hentry _ (by simp)⟩
  settled x y hy := by
    change y ∈ (NormEnv.image Prelude.ctx.values x).freeNames at hy
    change NormEnv.image Prelude.ctx.values y = .var y
    rcases Prelude.lookup_cases x with ⟨-, hget, -⟩ | ⟨op, hget, -⟩ | ⟨-, hget⟩
    · rw [Ctx.image_values_of_get? hget, Core.freeNames, List.mem_singleton] at hy
      rw [hy, Ctx.image_values_of_get? hget]
    · rw [Ctx.image_values_of_get? hget] at hy
      cases hy
    · rw [Ctx.image_values_of_unbound hget, Core.freeNames, List.mem_singleton] at hy
      rw [hy, Ctx.image_values_of_unbound hget]
  anonymous := ⟨_, rfl⟩

/-- A name is bound to a judgement about the session, as a constant or in normal form. -/
theorem Grounded.bind {session : Session} (h : session.Grounded) {name : String}
    (hname : session.env.maps name = false) {elaborated : Classified Core}
    {result : Classified Value} (hcovered : elaborated.CoveredBy ⟨session.checkerEnv⟩)
    (hsettled : ∀ y ∈ elaborated.term.freeNames,
      NormEnv.image (Ctx.mk session.checkerEnv).values y = .var y) :
    (session.bind name elaborated result).Grounded := by
  let ctx : Ctx := ⟨session.checkerEnv⟩
  obtain ⟨checked, hchecked, hcovered, hsettled⟩ : ∃ checked,
      (session.bind name elaborated result).checkerEnv = (ctx.bind name checked).vars ∧
      checked.CoveredBy ctx ∧
      ∀ y ∈ checked.term.freeNames, NormEnv.image ctx.values y = .var y := by
    refine ⟨_, rfl, ?_, ?_⟩
    · split
      · exact ⟨hcovered.1, Ctx.covers_const _⟩
      · exact hcovered
    · split
      · nofun
      · exact hsettled
  have hnew {x : String} (hx : ctx.maps x = true) : x ≠ name := by
    rintro rfl
    rw [h.names x hx] at hname
    cases hname
  have hkept {x : String} (hx : ctx.maps x = true) (himage : NormEnv.image ctx.values x = .var x) :
      NormEnv.image (ctx.bind name checked).values x = .var x := by
    rw [Ctx.image_values_bind, if_neg (hnew hx), himage]
  refine ⟨⟨h.bare.source, h.bare.modules⟩, fun x hx ↦ ?_, ?_, fun x y hy ↦ ?_, ?_⟩
  · rw [hchecked] at hx
    exact (Env.maps_push _ _ _ _).mpr ((Ctx.maps_bind.mp hx).imp_right (h.names x))
  · rw [hchecked]
    exact h.whole.bindValue name hcovered
  · rw [hchecked] at hy ⊢
    change y ∈ (NormEnv.image (ctx.bind name checked).values x).freeNames at hy
    change NormEnv.image (ctx.bind name checked).values y = .var y
    rw [Ctx.image_values_bind] at hy
    split at hy
    · exact hkept (hcovered.2 y hy) (hsettled y hy)
    · rename_i hne
      cases hget : Env.get? ctx.vars x with
      | some judgement =>
        have hx : ctx.maps x = true := Option.isSome_iff_exists.mpr ⟨_, hget⟩
        exact hkept (h.whole.resolvesWithin x hx y hy) (h.settled x y hy)
      | none =>
        -- a name that is not bound stands for itself, before and after
        have himage := Ctx.image_values_of_unbound hget
        rw [himage, Core.freeNames, List.mem_singleton] at hy
        rw [hy, Ctx.image_values_bind, if_neg hne, himage]
  · rw [hchecked]
    obtain ⟨v, hv⟩ := h.anonymous
    refine ⟨v, (Ctx.image_values_bind ctx name checked _).trans ?_⟩
    rw [if_neg (hnew h.whole.anonymous), hv]

/-- A definition by a program whose constants are literals. -/
def Call.DefinesLiteral : Call → Prop
  | .define _ _ type? program =>
    ∀ content, .constant content ∈ (annotated type? program).mentions → content.IsLiteral
  | _ => False

theorem Grounded.defined (hs : s.host.Grounded) {name : String}
    (hname : s.host.env.maps name = false)
    (hprogram : ∀ content, .constant content ∈ program.mentions → content.IsLiteral)
    {normalized : Classified Core} {result : Classified Value}
    (hran : (ran fuel program s).1 = .ok (normalized, result)) :
    (s.host.bind name normalized result).Grounded := by
  obtain ⟨c, s₁, s₂, value, hc, hnormalized, -⟩ := returns_run_iff.mp (returns_of_ran hran)
  obtain ⟨d, hd, -, htype, hterm⟩ := hs.bare.answers (outcome_eq_ok_iff.mpr ⟨s₁, hc⟩)
  have hderives : ∀ m ∈ program.mentions, m.Derives (Host.withoutImports fuel) := by
    intro m hm
    cases m with
    | identifier _ => trivial
    | constant content => exact hprogram content hm
    | imported _ => exact fun _ _ _ h ↦ absurd h not_returns_fail
  have hcovered : c.CoveredBy ⟨s.host.checkerEnv⟩ := by
    have hd := (Term.elaboration_covered hs.whole hderives).of_answers hd
    exact ⟨hd.1.of_unstamped_eq (Core.sameAs_iff.mp htype),
      hd.2.of_unstamped_eq (Core.sameAs_iff.mp hterm)⟩
  refine hs.bind hname (hcovered.normalized hs.whole _ _ _ hnormalized) fun y hy ↦ ?_
  obtain ⟨-, -, hterm⟩ := Check.normalized_normalizes c _ _ _ hnormalized
  obtain ⟨x, -, hy⟩ := hterm.mem_freeNames hy
  exact hs.settled x y hy

theorem Grounded.step (hs : s.host.Grounded) {call : Call} (hcall : call.DefinesLiteral) :
    (call.step.start s).2.host.Grounded := by
  have hchanges := changes_step s call
  generalize (call.step.start s).2.host = later at hchanges
  cases hchanges with
  | refused => exact hs
  | failed fuel _ type? program =>
    rw [hs.bare.withLoaded]
    exact hs
  | defined hname hran =>
    rw [hs.bare.withLoaded]
    exact hs.defined hname hcall hran
  | executed | updated | forgotten => exact hcall.elim

theorem grounded_after {start : Progress Session} (hstart : start.host.Grounded)
    {calls : List Call} (hcalls : ∀ call ∈ calls, call.DefinesLiteral) :
    (after start calls).host.Grounded :=
  after_keeps (fun _ _ hcall hs ↦ hs.step hcall) hstart hcalls

end Session

end RankedTT
