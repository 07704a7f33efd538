import RankedTT.Proofs.BoundNames
import RankedTT.Proofs.UpToDate

/-!
Reachable sessions. A session starts out empty or with the prelude, can be given another source or
other settings, and is used by calls. Between calls no module is being loaded, and the definitions
that the evaluator sees are in step with those that the typing rules see. An execution loads modules
and leaves the rest of the session as it was, however it ends and however deep its imports go; so
does a definition that fails, and one that succeeds adds a single binding to either environment.
-/

set_option autoImplicit false
set_option relaxedAutoImplicit false

namespace RankedTT.Session

open Run

/-- Sessions, with the journal kept so far, that can come up between calls. -/
inductive Reachable : Progress Session → Prop
  | empty (journal : Journal) : Reachable ⟨Session.empty, journal⟩
  | withPrelude (journal : Journal) : Reachable ⟨Session.withPrelude, journal⟩
  | withSource {s : Progress Session} (source : Source) (before : Reachable s) :
      Reachable { s with host := { s.host with source := source } }
  | withSettings {s : Progress Session} (settings : Settings) (before : Reachable s) :
      Reachable { s with host := { s.host with settings := settings } }
  | step {s : Progress Session} (call : Call) (before : Reachable s) :
      Reachable (call.step.start s).2

/-- What a call does to a session that neither binds a name nor changes the source: all it can do is
to load modules. -/
structure Undisturbed (session later : Session) : Prop where
  env : later.env = session.env
  checkerEnv : later.checkerEnv = session.checkerEnv
  source : later.source = session.source
  settings : later.settings = session.settings
  idle : later.modules.loading = []
  loaded : ∀ {m result}, session.modules.cached? m = some result →
    later.modules.cached? m = some result ∧
      later.modules.imports.imports? m = session.modules.imports.imports? m

/-- A binding as the evaluator and as the typing rules see it: a value is a constant for the typing
rules. -/
structure SameBinding (defined : String × Classified Value) (checked : String × Classified Core) :
    Prop where
  name : checked.1 = defined.1
  rank : checked.2.rank = defined.2.rank
  type : checked.2.type = defined.2.type
  value : defined.2.rank = 0 → checked.2.term = .const defined.2.term

/-- Both environments have the same names in the same order, and agree about each. -/
def InStep (session : Session) : Prop := List.Forall₂ SameBinding session.env session.checkerEnv

/-- What holds between calls. -/
structure Orderly (session : Session) : Prop where
  idle : session.modules.loading = []
  inStep : session.InStep

/-! ### One call -/

/-- Nothing is asked of the results of modules. -/
def anyResults (fuel : Nat) (session : Session) : Upkeep fuel session where
  Ok _ _ _ := True
  Blames _ := True
  Fine _ := True
  source _ := trivial
  stable _ _ _ _ := trivial
  loads _ _ _ _ := trivial
  rejected _ := trivial
  cyclic _ _ := trivial
  missing _ := trivial
  runtime _ _ _ _ _ := trivial

section Calls

variable {s : Progress Session}

theorem sound_anyResults (hidle : s.host.modules.loading = []) (fuel : Nat) :
    s.host.modules.Sound (anyResults fuel s.host).Ok :=
  Upkeep.sound_of_idle _ hidle fun _ ↦ trivial

/-- Running a program loads modules, whether the run succeeds or not. -/
theorem undisturbed_withLoaded (hidle : s.host.modules.loading = []) (fuel : Nat)
    (program : Term) : Undisturbed s.host (withLoaded fuel program s) := by
  obtain ⟨-, hgrows⟩ :=
    (anyResults fuel s.host).ran_keeps (sound_anyResults hidle fuel) program
  refine ⟨rfl, rfl, rfl, rfl, hgrows.loading.trans hidle, fun hresult ↦ ⟨?_, ?_⟩⟩
  · exact hgrows.cached hresult
  · exact hgrows.imports (.inl (by rw [hresult]; rfl))

theorem sameBinding_bind (name : String) (normalized : Classified Core) (value : Value)
    (session : Session) :
    ∃ checked, (session.bind name normalized (normalized.withTerm value)).checkerEnv =
        session.checkerEnv.push name checked ∧
      SameBinding (name, normalized.withTerm value) (name, checked) := by
  refine ⟨_, rfl, rfl, ?_, ?_, fun hrank ↦ ?_⟩
  · split <;> rfl
  · split <;> rfl
  · rw [if_pos hrank]
    rfl

/-- A definition that succeeds binds its name once more in both environments. -/
theorem bindsOnce_of_ran (hidle : s.host.modules.loading = []) {fuel : Nat} {program : Term}
    {normalized : Classified Core} {result : Classified Value}
    (hran : (ran fuel program s).1 = .ok (normalized, result)) (name : String) :
    ∃ checked,
      ((withLoaded fuel program s).bind name normalized result).checkerEnv =
        s.host.checkerEnv.push name checked ∧
      SameBinding (name, result) (name, checked) := by
  obtain ⟨_, value, rfl, -⟩ :=
    (anyResults fuel s.host).ran_returns hidle (sound_anyResults hidle fuel) hran
  exact sameBinding_bind name normalized value (withLoaded fuel program s)

theorem Undisturbed.inStep {session later : Session} (h : Undisturbed session later)
    (hstep : session.InStep) : later.InStep := by
  rw [InStep, h.env, h.checkerEnv]
  exact hstep

theorem Orderly.step (hs : s.host.Orderly) (call : Call) :
    (call.step.start s).2.host.Orderly := by
  refine ⟨(advances_step hs.idle call).idle, ?_⟩
  have hchanges := changes_step s call
  generalize (call.step.start s).2.host = later at hchanges
  cases hchanges with
  | executed fuel program => exact (undisturbed_withLoaded hs.idle fuel program).inStep hs.inStep
  | failed fuel _ type? program =>
    exact (undisturbed_withLoaded hs.idle fuel (annotated type? program)).inStep hs.inStep
  | @defined _ name _ _ normalized result _ hran =>
    obtain ⟨checked, hchecked, hsame⟩ := bindsOnce_of_ran hs.idle hran name
    rw [InStep, hchecked]
    exact .cons hsame hs.inStep
  | refused | updated | forgotten => exact hs.inStep

end Calls

/-! ### All reachable sessions -/

theorem inStep_withPrelude : withPrelude.InStep := by
  refine List.forall₂_map_right_iff.mpr (List.forall₂_same.mpr ?_)
  rintro ⟨name, judgement⟩ hmem
  obtain ⟨rfl, -⟩ | ⟨op, rfl⟩ := Prelude.mem_env hmem
  · exact ⟨rfl, rfl, rfl, nofun⟩
  · exact ⟨rfl, rfl, rfl, fun _ ↦ rfl⟩

theorem Reachable.orderly {s : Progress Session} (hs : Reachable s) : s.host.Orderly := by
  induction hs with
  | empty journal => exact ⟨rfl, .nil⟩
  | withPrelude journal => exact ⟨rfl, inStep_withPrelude⟩
  | withSource _ _ ih | withSettings _ _ ih => exact ⟨ih.idle, ih.inStep⟩
  | step call _ ih => exact ih.step call

/-- In every reachable session: an execution leaves the session intact, whatever its outcome; a
definition that does not succeed leaves it intact as well; a definition that succeeds pushes its
name once on both environments; and the environments are in step. -/
theorem intact_of_reachable {s : Progress Session} (hs : Reachable s) :
    (∀ fuel program, Undisturbed s.host ((execute fuel program).start s).2.host) ∧
      (∀ fuel name type? program stop later,
        (define fuel name type? program).start s = (.error stop, later) →
          Undisturbed s.host later.host) ∧
      (∀ fuel name type? program result later,
        (define fuel name type? program).start s = (.ok result, later) →
          later.host.env = s.host.env.push name result ∧
          ∃ checked, later.host.checkerEnv = s.host.checkerEnv.push name checked ∧
            SameBinding (name, result) (name, checked)) ∧
      s.host.InStep := by
  have hidle := hs.orderly.idle
  refine ⟨fun fuel program ↦ ?_, fun fuel name type? program stop later h ↦ ?_,
    fun fuel name type? program result later h ↦ ?_, hs.orderly.inStep⟩
  · rw [start_execute]
    exact undisturbed_withLoaded hidle fuel program
  · rw [start_define] at h
    split at h
    · obtain ⟨-, rfl⟩ := Prod.mk.inj h
      exact ⟨rfl, rfl, rfl, rfl, hidle, fun hresult ↦ ⟨hresult, rfl⟩⟩
    · dsimp only at h
      split at h
      · cases h
      · obtain ⟨-, rfl⟩ := Prod.mk.inj h
        exact undisturbed_withLoaded hidle fuel (annotated type? program)
  · rw [start_define] at h
    split at h
    · cases h
    · dsimp only at h
      split at h
      · rename_i normalized found hran
        obtain ⟨hresult, rfl⟩ := Prod.mk.inj h
        obtain rfl : found = result := Except.ok.inj hresult
        exact ⟨rfl, bindsOnce_of_ran hidle hran name⟩
      · cases h

/-- After a module has been loaded, a program that imports it and fails. -/
theorem intact_of_reachable_doubling :
    let s := after doubling [.execute 50 (.importing "two")]
    let program : Term := .app (.importing "two") (.importing "one")
    Reachable s ∧ s.host.isLoaded "two" ∧ ((execute 50 program).outcome s).toOption.isNone ∧
      ((execute 50 program).start s).2.host.modules.cached? "two" =
        s.host.modules.cached? "two" := by
  intro s program
  have hs : Reachable s := .step _ (.withSource _ (.withPrelude _))
  have hloaded : s.host.isLoaded "two" := by decide +kernel
  refine ⟨hs, hloaded, by decide +kernel, ?_⟩
  obtain ⟨result, hresult⟩ := isLoaded_iff.mp hloaded
  obtain ⟨hexecute, -, -, -⟩ := @intact_of_reachable s hs
  rw [((hexecute 50 program).loaded hresult).1, hresult]

end RankedTT.Session
