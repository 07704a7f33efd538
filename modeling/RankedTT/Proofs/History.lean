import RankedTT.Proofs.Loading

/-!
Histories of sessions. A session is used by calls that execute or define a program, or change the
source; whether a call succeeds or fails, the next one starts from what it leaves behind. What a
call can do to a session is said once, and all that holds of a session after every history is
derived from it.
-/

set_option autoImplicit false
set_option relaxedAutoImplicit false

namespace RankedTT

open Run

namespace Session

inductive Call where
  | execute (fuel : Nat) (program : Term)
  | define (fuel : Nat) (name : String) (type? : Option Term) (program : Term)
  | update (name : String) (program : Term)
  | forget (name : String)

/-- A program with its annotation, if it has one. -/
def annotated (type? : Option Term) (program : Term) : Term :=
  match type? with
  | some type => .anno type program
  | none => program

namespace Call

def step : Call → SessionStep Unit
  | execute fuel program => do let _ ← Session.execute fuel program
  | define fuel name type? program => do let _ ← Session.define fuel name type? program
  | update name program => modify fun s ↦ { s with host := s.host.updateModule name program }
  | forget name => modify fun s ↦ { s with host := (s.host.forgetModule name).2 }

/-- The program that a call runs, with the fuel for it. -/
def runs? : Call → Option (Nat × Term)
  | execute fuel program => some (fuel, program)
  | define fuel _ type? program => some (fuel, annotated type? program)
  | _ => none

end Call

/-- The state after some calls, the first of them first. -/
def after (s : Progress Session) (calls : List Call) : Progress Session :=
  calls.foldl (fun s call ↦ (call.step.start s).2) s

@[simp]
theorem after_append_singleton (s : Progress Session) (calls : List Call) (call : Call) :
    after s (calls ++ [call]) = (call.step.start (after s calls)).2 :=
  List.foldl_concat _ _ _ _

/-- What every call of a kind keeps, any number of them keeps. -/
theorem after_keeps {P : Session → Prop} {kind : Call → Prop}
    (hstep : ∀ (s : Progress Session) (call : Call), kind call → P s.host →
      P (call.step.start s).2.host)
    {start : Progress Session} (hstart : P start.host) {calls : List Call}
    (hcalls : ∀ call ∈ calls, kind call) : P (after start calls).host := by
  induction calls generalizing start with
  | nil => exact hstart
  | cons call calls ih =>
    obtain ⟨hcall, hcalls⟩ := List.forall_mem_cons.mp hcalls
    exact ih (hstep start call hcall hstart) hcalls

/-- How a program ends that is run in a session. -/
def ran (fuel : Nat) (program : Term) (s : Progress Session) :
    Outcome SessionError (Classified Core × Classified Value) × Progress Modules :=
  (s.host.runTerm fuel program).start ⟨s.host.modules, s.journal⟩

/-- The session with the modules that were loaded while a program was run in it. -/
def withLoaded (fuel : Nat) (program : Term) (s : Progress Session) : Session :=
  { s.host with modules := (ran fuel program s).2.host }

theorem start_loading (fuel : Nat) (program : Term) (s : Progress Session) :
    (loading fun session ↦ session.runTerm fuel program).start s =
      ((ran fuel program s).1, ⟨withLoaded fuel program s, (ran fuel program s).2.journal⟩) := rfl

theorem start_execute (fuel : Nat) (program : Term) (s : Progress Session) :
    (execute fuel program).start s =
      ((ran fuel program s).1.map Prod.snd,
        ⟨withLoaded fuel program s, (ran fuel program s).2.journal⟩) := by
  rw [execute, start_bind, start_loading]
  rcases (ran fuel program s).1 with stop | ⟨elaborated, result⟩ <;> rfl

theorem ran_of_execute {fuel : Nat} {program : Term} {s : Progress Session}
    {result : Classified Value} (h : (execute fuel program).outcome s = .ok result) :
    ∃ normalized, (ran fuel program s).1 = .ok (normalized, result) := by
  rw [outcome, start_execute] at h
  generalize (ran fuel program s).1 = o at h ⊢
  obtain stop | ⟨normalized, result'⟩ := o
  · cases h
  · injection h with h
    exact ⟨normalized, h ▸ rfl⟩

theorem returns_of_ran {fuel : Nat} {program : Term} {s : Progress Session}
    {x : Classified Core × Classified Value} (h : (ran fuel program s).1 = .ok x) :
    (s.host.runTerm fuel program).Returns ⟨s.host.modules, s.journal⟩ x
      (ran fuel program s).2 :=
  Prod.ext h rfl

theorem start_define (fuel : Nat) (name : String) (type? : Option Term) (program : Term)
    (s : Progress Session) :
    (define fuel name type? program).start s =
      if s.host.env.maps name then (.error (.error (.redefinition name)), s)
      else
        let program := annotated type? program
        let journal := (ran fuel program s).2.journal
        match (ran fuel program s).1 with
        | .ok (elaborated, result) =>
          (.ok result, ⟨(withLoaded fuel program s).bind name elaborated result,
            journal.record (.defined name result.type)⟩)
        | .error stop => (.error stop, ⟨withLoaded fuel program s, journal⟩) := by
  have hget : (get : SessionStep (Progress Session)).start s = (.ok s, s) := rfl
  unfold define
  rw [start_bind, hget]
  dsimp only
  by_cases hmaps : s.host.env.maps name = true
  · rw [if_pos hmaps, if_pos hmaps]
    rfl
  · rw [if_neg hmaps, if_neg hmaps]
    change ((loading fun session ↦ session.runTerm fuel (annotated type? program)) >>= fun x ↦
      (do
        modify (Progress.record (.defined name x.2.type))
        modify fun progress ↦ { progress with host := progress.host.bind name x.1 x.2 }
        return x.2 : SessionStep (Classified Value))).start s = _
    rw [start_bind, start_loading]
    rcases (ran fuel (annotated type? program) s).1 with stop | ⟨elaborated, result⟩ <;> rfl

/-- What a call can do to a session. -/
inductive Changes (s : Progress Session) : Call → Session → Prop
  | executed (fuel : Nat) (program : Term) :
      Changes s (.execute fuel program) (withLoaded fuel program s)
  | refused (fuel : Nat) (name : String) (type? : Option Term) (program : Term) :
      Changes s (.define fuel name type? program) s.host
  | failed (fuel : Nat) (name : String) (type? : Option Term) (program : Term) :
      Changes s (.define fuel name type? program) (withLoaded fuel (annotated type? program) s)
  | defined {fuel : Nat} {name : String} {type? : Option Term} {program : Term}
      {elaborated : Classified Core} {result : Classified Value}
      (fresh : s.host.env.maps name = false)
      (ran : (ran fuel (annotated type? program) s).1 = .ok (elaborated, result)) :
      Changes s (.define fuel name type? program)
        ((withLoaded fuel (annotated type? program) s).bind name elaborated result)
  | updated (name : String) (program : Term) :
      Changes s (.update name program) (s.host.updateModule name program)
  | forgotten (name : String) : Changes s (.forget name) (s.host.forgetModule name).2

theorem changes_step (s : Progress Session) (call : Call) :
    Changes s call (call.step.start s).2.host := by
  cases call with
  | execute fuel program =>
    have hstep : ((Call.execute fuel program).step.start s).2.host = withLoaded fuel program s := by
      rw [Call.step, start_bind, start_execute]
      rcases (ran fuel program s).1 with stop | ⟨elaborated, result⟩ <;> rfl
    rw [hstep]
    exact .executed fuel program
  | define fuel name type? program =>
    rw [Call.step, start_bind, start_define]
    by_cases hmaps : s.host.env.maps name = true
    · rw [if_pos hmaps]
      exact .refused fuel name type? program
    · rw [if_neg hmaps]
      dsimp only
      cases hran : (ran fuel (annotated type? program) s).1 with
      | error stop => exact .failed fuel name type? program
      | ok x => exact .defined (Bool.not_eq_true _ ▸ hmaps) hran
  | update name program => exact .updated name program
  | forget name => exact .forgotten name

/-- A call fails because its name is taken, or because the program that it runs does. -/
theorem fails_step {s : Progress Session} {call : Call} {cause : SessionError}
    (h : call.step.Fails s cause) :
    (∃ name, cause = .redefinition name) ∨
      ∃ fuel program, call.runs? = some (fuel, program) ∧
        (s.host.runTerm fuel program).Fails ⟨s.host.modules, s.journal⟩ cause := by
  cases call with
  | execute fuel program =>
    simp only [Call.step, fails_bind_iff, not_fails_pure, and_false, exists_false, or_false] at h
    unfold Fails outcome at h
    rw [start_execute] at h
    refine .inr ⟨fuel, program, rfl, ?_⟩
    change (ran fuel program s).1 = _
    rcases hran : (ran fuel program s).1 with stop | ⟨elaborated, result⟩
    · rw [hran] at h
      injection h with h
      rw [h]
    · rw [hran] at h
      cases h
  | define fuel name type? program =>
    simp only [Call.step, fails_bind_iff, not_fails_pure, and_false, exists_false, or_false] at h
    unfold Fails outcome at h
    rw [start_define] at h
    by_cases hmaps : s.host.env.maps name = true
    · rw [if_pos hmaps] at h
      injection h with h
      injection h with h
      exact .inl ⟨name, h.symm⟩
    · refine .inr ⟨fuel, annotated type? program, rfl, ?_⟩
      rw [if_neg hmaps] at h
      change (ran fuel (annotated type? program) s).1 = _
      dsimp only at h
      rcases hran : (ran fuel (annotated type? program) s).1 with stop | ⟨elaborated, result⟩
      · rw [hran] at h
        injection h with h
        rw [h]
      · rw [hran] at h
        cases h
  | update name program => cases h
  | forget name => cases h

/-! ### What a call keeps -/

namespace Upkeep

variable {fuel : Nat} {s : Progress Session} (U : Upkeep fuel s.host)

theorem ran_keeps (hs : s.host.modules.Sound U.Ok) (program : Term) :
    U.Invariant s.host.modules (ran fuel program s).2.host :=
  (loads_loadModule _).run_keeps hs program

variable (hidle : s.host.modules.loading = [])

include hidle

theorem sound_of_idle (hok : ∀ {x v}, s.host.modules.cached? x = some v → U.Ok s.host.modules x v) :
    s.host.modules.Sound U.Ok where
  nodup := hidle ▸ List.nodup_nil
  unloaded hx := by
    rw [hidle] at hx
    cases hx
  ok := hok

theorem ran_returns (hs : s.host.modules.Sound U.Ok) {program : Term}
    {normalized : Classified Core} {result : Classified Value}
    (h : (ran fuel program s).1 = .ok (normalized, result)) :
    ∃ elaborated value, result = normalized.withTerm value ∧
      s.host.Executed fuel none program (ran fuel program s).2.host elaborated normalized
        value := by
  have hnew : ∀ m, s.host.modules.loading.getLast? = some m →
      s.host.modules.imports.imports? m = none := by
    rw [hidle]
    rintro m ⟨⟩
  have hexecuted := (loads_loadModule _).run_returns hs hnew (returns_of_ran h)
  rw [hidle] at hexecuted
  exact hexecuted

theorem ran_fails (hs : s.host.modules.Sound U.Ok) {program : Term} (hfine : U.Fine program)
    {cause : SessionError}
    (h : (s.host.runTerm fuel program).Fails ⟨s.host.modules, s.journal⟩ cause) :
    U.Blames cause := by
  refine (loads_loadModule _).run_fails (s := ⟨s.host.modules, s.journal⟩) hs ?_ hfine h
  rw [hidle]
  rintro m ⟨⟩

end Upkeep

end Session

end RankedTT
