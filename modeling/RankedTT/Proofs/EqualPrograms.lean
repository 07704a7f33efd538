import RankedTT.Proofs.History
import RankedTT.Proofs.Reading
import RankedTT.Proofs.Safety
import Mathlib.Data.List.Induction

/-!
Definitional equality and execution. Programs that a session finds equal have the same data as
results, also when they are applied to integers, provided that their normalization captures no name
and that the equality of values tells apart the values that they mention. The equality of closures
does not look at what they captured, so the second condition is not met by every session.
-/

set_option autoImplicit false
set_option relaxedAutoImplicit false

namespace RankedTT

open Run Nameless

/-! ### Applied programs -/

namespace Term

variable {σ κ : Type} {host : Host σ κ} {ctx : Ctx}

/-- An application whose operator is not a bare lambda is inferred from its operator. -/
theorem infer_app {operator argument : Term} (hlam : ∀ param body, operator ≠ .lam param body) :
    (Term.app operator argument).infer host ctx = do
      let c ← inferApplication host.fuel (.app operator argument) (operator.judged host)
        (argument.judged host) ctx
      Check.record (.inferred ctx (.app operator argument) c.type)
      return c := by
  cases operator with
  | lam param body => exact absurd rfl (hlam param body)
  | _ => rfl

theorem returns_infer_app {operator argument : Term}
    (hlam : ∀ param body, operator ≠ .lam param body) {s s₁ : Progress σ} {c : Classified Core}
    (h : ((Term.app operator argument).infer host ctx).Returns s c s₁) :
    ∃ function s₂, (operator.infer host ctx).Returns s function s₂ ∧
      ∃ type domain operand s₃ s₄, (argument.check host ctx domain).Returns s₃ operand s₄ ∧
        c.term = .app function.rank type function.term operand := by
  rw [infer_app hlam] at h
  simp only [inferApplication, returns_bind_iff, returns_pure_iff] at h
  obtain ⟨c, s₂, ⟨function, s₃, hfunction, type, s₄, -, h⟩, -, -, -, rfl, -⟩ := h
  split at h
  · simp only [returns_bind_iff, returns_pure_iff] at h
    obtain ⟨operand, s₅, hoperand, result, s₆, -, rfl, -⟩ := h
    exact ⟨function, s₃, hfunction, _, _, operand, s₄, s₅, hoperand, rfl⟩
  · exact absurd h not_returns_fail
  · exact absurd h not_returns_fail

theorem returns_check_int {n : Int} {expected : Classified Core} {s s₁ : Progress σ} {t : Core}
    (h : ((Prelude.int n).check host ctx expected).Returns s t s₁) : t = .const (.int n) := by
  simp only [Term.check, Term.judged, Prelude.int, Term.rule, constantRule, inferredRule,
    Judged.logged, checkByInference, returns_bind_iff, returns_pure_iff] at h
  obtain ⟨-, -, -, _, _, ⟨rfl, -⟩, -, -, -, rfl, -⟩ := h
  rfl

/-- A program applied to integers is elaborated to what the program is elaborated to, applied to
them. -/
theorem applied_of_returns {program : Term} {s s₁ s₂ : Progress σ} {c d : Classified Core}
    (hc : (program.infer host ctx).Returns s c s₁) {args : List Int}
    (hd : ((program.applyAll (args.map Prelude.int)).infer host ctx).Returns s d s₂) :
    c.term.Applied args d.term := by
  have hlam (args : List Term) : ∀ param body, program.applyAll args ≠ .lam param body := by
    rintro param body h
    induction args using List.reverseRecOn with
    | nil =>
      obtain rfl : program = .lam param body := h
      simp only [Term.infer, Term.judged, Term.rule, lambdaRule, Judged.logged,
        returns_bind_iff] at hc
      obtain ⟨_, _, hc, -⟩ := hc
      exact not_returns_fail hc
    | append_singleton args last =>
      rw [applyAll, List.foldl_concat] at h
      cases h
  induction args using List.reverseRecOn generalizing d s₂ with
  | nil =>
    obtain ⟨rfl, -⟩ := hc.deterministic hd
    exact .none
  | append_singleton args n ih =>
    rw [List.map_append, List.map_singleton, applyAll, List.foldl_concat] at hd
    obtain ⟨function, s₃, hfunction, type, domain, operand, s₄, s₅, hoperand, hterm⟩ :=
      returns_infer_app (hlam _) hd
    rw [hterm, returns_check_int hoperand]
    exact .app _ _ n (ih hfunction)

end Term

namespace Session

variable {fuel : Nat} {s : Progress Session}

/-! ### Values are constants to the typing rules -/

/-- What a program is elaborated to in a session. -/
def checked (fuel : Nat) (program : Term) (s : Progress Session) :
    Outcome (Refusal SessionError) (Classified Core) :=
  (checkProgram ⟨fuel, loadModule fuel s.host s.host.loadDepth⟩ s.host.checkerEnv program).outcome
    ⟨s.host.modules, s.journal⟩

/-- A program that is run has been elaborated; it is evaluated if it lives in the base universe. -/
theorem checked_of_ran {program : Term} {normalized : Classified Core}
    {result : Classified Value} (h : (ran fuel program s).1 = .ok (normalized, result)) :
    ∃ c, checked fuel program s = .ok c ∧ result.rank = c.rank ∧
      (c.rank = 0 → ∃ n, c.term.Evaluates s.host.runtimeEnv n result.term) ∧
      (c.rank ≠ 0 → result.term = .absent) := by
  obtain ⟨c, s₁, s₂, value, hc, hnormalized, hvalue, rfl⟩ :=
    returns_run_iff.mp (returns_of_ran h)
  obtain ⟨hevaluates, habsent⟩ := returns_of_evaluateIn hvalue
  have hrank : normalized.rank = c.rank := by
    obtain ⟨_, _, rfl, -, -⟩ := Check.normalized_computed c _ _ _ hnormalized
    rfl
  refine ⟨c, outcome_eq_ok_iff.mpr ⟨s₁, hc⟩, hrank, fun hzero ↦ ?_, habsent⟩
  have heval := hevaluates hzero
  rw [evaluate, if_pos hzero] at heval
  exact Core.evaluates_of_returns heval

/-- Every name that has a value has it as a constant. -/
def OpaqueValues (session : Session) : Prop :=
  ∀ x v, Env.get? session.runtimeEnv x = some v → v = .absent ∨
    ∃ c, Env.get? session.checkerEnv x = some c ∧ c.term = .const v

theorem opaqueValues_withPrelude (source : Source) :
    OpaqueValues { withPrelude with source := source } := by
  intro x v hx
  change Env.get? (Prelude.env.mapBindings fun _ judgement ↦ judgement.term) x = some v at hx
  rw [Env.get?_mapBindings] at hx
  obtain ⟨judgement, hjudgement, rfl⟩ := Option.map_eq_some_iff.mp hx
  by_cases habsent : judgement.term = .absent
  · exact .inl habsent
  · refine .inr ⟨judgement.withTerm (.const judgement.term), ?_, rfl⟩
    change Env.get? Prelude.checkerEnv x = _
    rw [Prelude.checkerEnv, Env.get?_mapBindings, hjudgement, Option.map_some]
    split
    · contradiction
    · rfl

theorem OpaqueValues.bind {session : Session} (h : session.OpaqueValues) (name : String)
    (elaborated : Classified Core) {result : Classified Value}
    (habsent : result.rank ≠ 0 → result.term = .absent) :
    (session.bind name elaborated result).OpaqueValues := by
  intro x v hx
  change Env.get? (Env.push session.runtimeEnv name result.term) x = some v at hx
  change v = .absent ∨ ∃ c, Env.get? (Env.push session.checkerEnv name
    (if result.rank = 0 then elaborated.withTerm (.const result.term) else elaborated)) x =
      some c ∧ c.term = .const v
  by_cases hname : x = name
  · subst hname
    rw [Env.get?_push_self] at hx ⊢
    obtain rfl := Option.some.inj hx
    by_cases hrank : result.rank = 0
    · rw [if_pos hrank]
      exact .inr ⟨_, rfl, rfl⟩
    · exact .inl (habsent hrank)
  · rw [Env.get?_push_of_ne _ _ hname] at hx ⊢
    exact h x v hx

theorem OpaqueValues.step (h : s.host.OpaqueValues) (call : Call) :
    (call.step.start s).2.host.OpaqueValues := by
  have hchanges := changes_step s call
  generalize (call.step.start s).2.host = later at hchanges
  cases hchanges with
  | executed | refused | failed | updated | forgotten => exact h
  | @defined fuel name type? program elaborated result _ hran =>
    obtain ⟨c, -, hrank, -, habsent⟩ := checked_of_ran hran
    have hloaded : (withLoaded fuel (annotated type? program) s).OpaqueValues := h
    exact hloaded.bind name elaborated fun hne ↦ habsent (hrank ▸ hne)

theorem opaqueValues_after {start : Progress Session} (hstart : start.host.OpaqueValues)
    (calls : List Call) : (after start calls).host.OpaqueValues :=
  after_keeps (fun _ call _ hs ↦ hs.step call) hstart fun _ _ ↦ trivial

/-! ### Equal programs -/

/-- The values that a term mentions: its constants, and the values of the names in it. -/
def Mentions (session : Session) (t : Core) (v : Value) : Prop :=
  v ∈ t.constants ∨ ∃ x ∈ t.freeNames, Env.get? session.runtimeEnv x = some v

/-- The datum that an applied program has as its result is computed from the normal form of the
program, if constants are unfolded as `κ` says. -/
theorem OpaqueValues.computes (hs : s.host.OpaqueValues) {κ : ValueKey → Nameless}
    (hκ : ∀ key υ, (κ key).subst υ = κ key) {program : Term} {c : Classified Core}
    (hc : checked fuel program s = .ok c)
    (hunfolds : ∀ v, s.host.Mentions c.term v → κ v.key = v.erasure)
    (hfree : (RankedTT.Call.core (Ctx.mk s.host.checkerEnv).values c.term 0).CaptureFree) {n : Core}
    (hn : c.term.normalForm fuel (Ctx.mk s.host.checkerEnv).values = .ok n) {args : List Int}
    {result : Classified Value}
    (hresult : (execute fuel (program.applyAll (args.map Prelude.int))).outcome s = .ok result)
    (hdatum : result.term.IsDatum) :
    ∃ r, Reduces (((n.nameless []).erase κ).callAll args) r ∧ r.Computes result.term := by
  obtain ⟨normalized, hran⟩ := ran_of_execute hresult
  obtain ⟨d, hd, -, hevaluates, habsent⟩ := checked_of_ran hran
  have hzero : d.rank = 0 := by
    by_contra hrank
    rw [habsent hrank] at hdatum
    obtain ⟨_, h⟩ | ⟨_, h⟩ := hdatum <;> cases h
  obtain ⟨m, heval⟩ := hevaluates hzero
  obtain ⟨s₁, hc⟩ := outcome_eq_ok_iff.mp hc
  obtain ⟨s₂, hd⟩ := outcome_eq_ok_iff.mp hd
  refine Core.computes_of_normalForm hκ (fun v hv ↦ hunfolds v (.inl hv)) hn hfree ?_
    (Term.applied_of_returns hc hd) heval hdatum
  intro x hx v hv
  rcases hs x v hv with rfl | ⟨judgement, hjudgement, hterm⟩
  · exact .inl rfl
  · refine .inr ⟨?_, hunfolds v (.inr ⟨x, hx, hv⟩)⟩
    rw [Ctx.image_values_of_get? hjudgement, hterm]

/-- Definitional equality is sound for execution: in every session, programs that are equal have
equal data as results, also when they are applied to integers, provided that normalizing them
captures no name, and that the equality of values tells apart the values that they mention. -/
theorem execute_eq_of_isEqualTo (source : Source) (journal : Journal) (calls : List Call)
    (fuel : Nat) {a b : Term} {ca cb : Classified Core} {args : List Int}
    {ra rb : Classified Value} :
    let s := after ⟨{ withPrelude with source := source }, journal⟩ calls
    let env := (Ctx.mk s.host.checkerEnv).values
    checked fuel a s = .ok ca → checked fuel b s = .ok cb →
    Classified.isEqualTo fuel env ca cb = .ok true →
    (RankedTT.Call.core env ca.term 0).CaptureFree →
    (RankedTT.Call.core env cb.term 0).CaptureFree →
    Value.ToldApart (fun v ↦ s.host.Mentions ca.term v ∨ s.host.Mentions cb.term v) →
    (execute fuel (a.applyAll (args.map Prelude.int))).outcome s = .ok ra →
    (execute fuel (b.applyAll (args.map Prelude.int))).outcome s = .ok rb →
    ra.term.IsDatum → rb.term.IsDatum → ra.term = rb.term := by
  intro s env hca hcb hequal hfreea hfreeb hapart hra hrb hdatuma hdatumb
  have hs : s.host.OpaqueValues := opaqueValues_after (opaqueValues_withPrelude source) calls
  obtain ⟨κ, hκ, hunfolds⟩ := hapart.exists_unfolding
  obtain ⟨-, n, n', hn, hn', halpha⟩ := Classified.normalForms_of_isEqualTo hequal
  obtain ⟨r, hr, hcomputes⟩ :=
    hs.computes hκ hca (fun v hv ↦ hunfolds v (.inl hv)) hfreea hn hra hdatuma
  obtain ⟨r', hr', hcomputes'⟩ :=
    hs.computes hκ hcb (fun v hv ↦ hunfolds v (.inr hv)) hfreeb hn' hrb hdatumb
  rw [Core.alphaEq_iff] at halpha
  rw [← halpha] at hr'
  exact Computes.unique hr hr' hcomputes hcomputes'

/-! ### Two definitions of a function -/

/-- A session with the successor as a definition. -/
def successor : Progress Session :=
  after ⟨{ withPrelude with source := [] }, .empty⟩
    [.define 50 "successor" none (.app (.var "plus") (Prelude.int 1))]

/-- The definition, and a function that was applied to it. -/
theorem execute_eq_of_isEqualTo_successor :
    let arrow := Term.arrow (.var "int") (.var "int")
    let a := Term.app (.typedLam "f" arrow (.var "f")) (.var "successor")
    let b := Term.var "successor"
    ∃ ra rb, (execute 50 (a.applyAll ([2].map Prelude.int))).outcome successor = .ok ra ∧
      (execute 50 (b.applyAll ([2].map Prelude.int))).outcome successor = .ok rb ∧
      ra.term = rb.term := by
  intro arrow a b
  let type := Core.quant .universal 0 (.var "int") anonymous (.var "int")
  let ca : Classified Core := ⟨0, type, .app 0 (.quant .universal 0 type anonymous type)
    (.lam "f" (some 1) (.var "f")) (.var "successor")⟩
  let cb : Classified Core := ⟨0, type, .var "successor"⟩
  have hca : checked 50 a successor = .ok ca := by cbv
  have hcb : checked 50 b successor = .ok cb := by cbv
  obtain ⟨_, hequal, rfl⟩ : ∃ equal, Classified.isEqualTo 50
      (Ctx.mk successor.host.checkerEnv).values ca cb = .ok equal ∧ equal = true :=
    exists_eq_ok_of_any (p := id) (by decide +kernel)
  have henv : NormEnv.Plain (Ctx.mk successor.host.checkerEnv).values :=
    .of_names (by decide +kernel)
  obtain ⟨ra, hra, hthree⟩ := exists_eq_ok_of_any (p := fun r ↦ r.term == .int 3)
    (o := (execute 50 (a.applyAll ([2].map Prelude.int))).outcome successor) (by decide +kernel)
  obtain ⟨rb, hrb, hthree'⟩ := exists_eq_ok_of_any (p := fun r ↦ r.term == .int 3)
    (o := (execute 50 (b.applyAll ([2].map Prelude.int))).outcome successor) (by decide +kernel)
  -- the programs mention the definition, and a type, which has no value
  have hint : Env.get? successor.host.runtimeEnv "int" = some .absent := rfl
  have hvalue : Env.get? successor.host.runtimeEnv "successor" =
      some (.host (.applied .plus (.int 1) 0)) := rfl
  have hmentions {t : Core} (hconstants : t.constants = [])
      (hnames : ∀ x ∈ t.freeNames, x = "int" ∨ x = "successor") {v : Value}
      (hv : successor.host.Mentions t v) :
      v = .absent ∨ v = .host (.applied .plus (.int 1) 0) := by
    rcases hv with hv | ⟨x, hx, hv⟩
    · rw [hconstants] at hv
      cases hv
    · rcases hnames x hx with rfl | rfl
      · exact .inl (Option.some.inj (hv.symm.trans hint))
      · exact .inr (Option.some.inj (hv.symm.trans hvalue))
  have hboth {v : Value}
      (hv : successor.host.Mentions ca.term v ∨ successor.host.Mentions cb.term v) :
      v = .absent ∨ v = .host (.applied .plus (.int 1) 0) :=
    hv.elim (hmentions rfl (by decide)) (hmentions rfl (by decide))
  have hapart : Value.ToldApart fun v ↦
      successor.host.Mentions ca.term v ∨ successor.host.Mentions cb.term v := by
    intro v w hv hw h
    rcases hboth hv with rfl | rfl
    · rcases hboth hw with rfl | rfl
      · rfl
      · cases h
    · rcases hboth hw with rfl | rfl
      · cases h
      · rfl
  refine ⟨ra, rb, hra, hrb, ?_⟩
  exact execute_eq_of_isEqualTo [] .empty _ 50 hca hcb hequal
    (henv.captureFree (.of_names (by decide))) (henv.captureFree (.of_names (by decide))) hapart
    hra hrb (.inl ⟨3, Value.eq_int_of_beq hthree⟩) (.inl ⟨3, Value.eq_int_of_beq hthree'⟩)

/-- Functions that are made by the same one: `one` returns 1 and `two` returns 2. -/
def siblings : Progress Session :=
  let constantly := Term.typedLam "x" (.var "int") (.typedLam "y" (.var "int") (.var "x"))
  after ⟨withPrelude, .empty⟩
    [.define 50 "constantly" none constantly,
      .define 50 "one" none (.app (.var "constantly") (Prelude.int 1)),
      .define 50 "two" none (.app (.var "constantly") (Prelude.int 2))]

/-- The equality of closures does not look at what they captured, and so different functions are
definitionally equal. -/
theorem isEqualTo_siblings :
    ∃ one two r r', checked 50 (.var "one") siblings = .ok one ∧
      checked 50 (.var "two") siblings = .ok two ∧ one.rank = 0 ∧ two.rank = 0 ∧
      Classified.isEqualTo 50 (Ctx.mk siblings.host.checkerEnv).values one two = .ok true ∧
      (execute 50 ((Term.var "one").applyAll ([0].map Prelude.int))).outcome siblings = .ok r ∧
      (execute 50 ((Term.var "two").applyAll ([0].map Prelude.int))).outcome siblings = .ok r' ∧
      r.term = .int 1 ∧ r'.term = .int 2 := by
  have htest : ((checked 50 (.var "one") siblings).toOption.any fun one ↦
      (checked 50 (.var "two") siblings).toOption.any fun two ↦
        (one.rank == 0 && two.rank == 0) &&
        (Classified.isEqualTo 50 (Ctx.mk siblings.host.checkerEnv).values one two).toOption.any
          id) = true := by
    decide +kernel
  obtain ⟨one, hone, htest⟩ := exists_eq_ok_of_any htest
  obtain ⟨two, htwo, htest⟩ := exists_eq_ok_of_any htest
  simp only [Bool.and_eq_true, beq_iff_eq] at htest
  obtain ⟨⟨hrank, hrank'⟩, htest⟩ := htest
  obtain ⟨_, hequal, rfl⟩ := exists_eq_ok_of_any htest
  obtain ⟨r, hr, hvalue⟩ := exists_eq_ok_of_any (p := fun r ↦ r.term == .int 1)
    (o := (execute 50 ((Term.var "one").applyAll ([0].map Prelude.int))).outcome siblings)
    (by decide +kernel)
  obtain ⟨r', hr', hvalue'⟩ := exists_eq_ok_of_any (p := fun r ↦ r.term == .int 2)
    (o := (execute 50 ((Term.var "two").applyAll ([0].map Prelude.int))).outcome siblings)
    (by decide +kernel)
  exact ⟨one, two, r, r', hone, htwo, hrank, hrank', hequal, hr, hr',
    Value.eq_int_of_beq hvalue, Value.eq_int_of_beq hvalue'⟩

end Session

end RankedTT
