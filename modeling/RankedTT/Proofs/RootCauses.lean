import RankedTT.Proofs.ImportCycles

/-!
The causes of failed imports. An execution that fails because a module cannot be loaded, fails for
the cause for which the module failed, through any number of modules. The typing rules need not know
that cause: they may be told a message in its place, while the cause is kept aside by the execution
that makes the request, in a cell that is empty when its program starts. As the first failure ends
the program, what is in the cell is the cause of the failure that is reported.
-/

set_option autoImplicit false
set_option relaxedAutoImplicit false

namespace RankedTT

open Run

namespace Session

/-! ### Programs that fail -/

/-- A program fails, and none of its requests does: it is rejected, or it cannot be normalized, or
its evaluation fails. -/
inductive FailsAlone (fuel : Nat) (session : Session) (load : String → Load (Classified Value))
    (program : Term) (s : Progress Modules) : SessionError → Prop
  | rejected {cause : TypeError}
      (h : (checkProgram ⟨fuel, load⟩ session.checkerEnv program).Fails s (.rejected cause)) :
      FailsAlone fuel session load program s (.type cause)
  | abnormal {elaborated : Classified Core} {s₁ : Progress Modules} {cause : TypeError}
      (elaborates :
        (checkProgram ⟨fuel, load⟩ session.checkerEnv program).Returns s elaborated s₁)
      (h : (Check.normalized fuel ⟨session.checkerEnv⟩ elaborated :
        Check Modules SessionError (Classified Core)).Fails s₁ (.rejected cause)) :
      FailsAlone fuel session load program s (.type cause)
  | runtime {elaborated normalized : Classified Core} {s₁ s₂ : Progress Modules}
      {cause : RuntimeError}
      (elaborates :
        (checkProgram ⟨fuel, load⟩ session.checkerEnv program).Returns s elaborated s₁)
      (normalizes : (Check.normalized fuel ⟨session.checkerEnv⟩ elaborated :
        Check Modules SessionError (Classified Core)).Returns s₁ normalized s₂)
      (h : (evaluateIn fuel session elaborated).Fails s₂ (.runtime cause)) :
      FailsAlone fuel session load program s (.runtime cause)

/-- Evaluation fails for causes of its own. -/
theorem fails_evaluateIn {fuel : Nat} {session : Session} {elaborated : Classified Core}
    {s : Progress Modules} {cause : SessionError}
    (h : (evaluateIn fuel session elaborated).Fails s cause) :
    ∃ cause', cause = .runtime cause' := by
  unfold evaluateIn at h
  split at h
  · obtain ⟨cause', -, rfl⟩ := Load.fails_of_ofEval h
    exact ⟨cause', rfl⟩
  · exact absurd h not_fails_pure

section Programs

variable {fuel : Nat} {session : Session} {load : String → Load (Classified Value)}
  {program : Term} {s : Progress Modules} {cause : SessionError}

/-- A check fails because of an import if and only if one of its requests fails, for the same
cause. -/
theorem failures_of_sameSteps {α : Type} {a : Check (Modules × List Request) SessionError α}
    {b : Check Modules SessionError α}
    (h : Check.SameSteps ⟨fuel, noting load⟩ ⟨fuel, load⟩ a b) (s : Progress Modules)
    (noted : List Request) :
    ∃ new, a.start ⟨(s.host, noted), s.journal⟩ =
        ((b.start s).1, ⟨((b.start s).2.host, noted ++ new), (b.start s).2.journal⟩) ∧
      ∀ filename cause, b.Fails s (.importFailed filename cause) ↔
        ∃ r ∈ new, r.name = filename ∧ (load r.name).Fails r.state cause := by
  induction h generalizing s noted with
  | pure x =>
    refine ⟨[], by rw [List.append_nil]; rfl, fun filename cause ↦ ?_⟩
    simp
  | stop reason =>
    refine ⟨[], by rw [List.append_nil]; rfl, fun filename cause ↦ ⟨fun h ↦ ?_, by simp⟩⟩
    cases reason <;> cases h
  | stamp t | record event =>
    exact ⟨[], by rw [List.append_nil]; rfl, fun filename cause ↦ ⟨nofun, by simp⟩⟩
  | request filename =>
    refine ⟨[⟨filename, s⟩], rfl, fun filename' cause ↦ ?_⟩
    simp only [fails_mapError_iff, List.mem_singleton, exists_eq_left, Refusal.importFailed.injEq]
    constructor
    · rintro ⟨cause, hcause, rfl, rfl⟩
      exact ⟨rfl, hcause⟩
    · rintro ⟨rfl, hcause⟩
      exact ⟨cause, hcause, rfl, rfl⟩
  | @bind _ _ a b f g first rest ihfirst ihrest =>
    obtain ⟨new, hnew, hfirst⟩ := ihfirst s noted
    rw [start_bind, hnew, start_bind]
    rcases hb : b.start s with ⟨stop | x, s₁⟩
    · refine ⟨new, rfl, fun filename cause ↦ ?_⟩
      rw [fails_bind_iff, ← hfirst]
      refine or_iff_left ?_
      rintro ⟨x, s₂, hx, -⟩
      cases hb.symm.trans hx
    · have hx : b.Returns s x s₁ := hb
      have hanswered (r : Request) (hr : r ∈ new) (cause : SessionError) :
          ¬ (load r.name).Fails r.state cause :=
        fun h ↦ hx.not_fails ((hfirst r.name cause).mpr ⟨r, hr, rfl, h⟩)
      obtain ⟨more, hmore, hrest⟩ := ihrest x s₁ (noted ++ new)
      refine ⟨new ++ more, by rw [← List.append_assoc]; exact hmore, fun filename cause ↦ ?_⟩
      have hbind : (b >>= g).Fails s (.importFailed filename cause) ↔
          (g x).Fails s₁ (.importFailed filename cause) := by
        unfold Fails outcome
        rw [start_bind, hb]
      rw [hbind, hrest]
      constructor
      · rintro ⟨r, hr, hfails⟩
        exact ⟨r, List.mem_append_right _ hr, hfails⟩
      · rintro ⟨r, hr, hname, hfails⟩
        exact ⟨r, (List.mem_append.mp hr).resolve_left fun hr ↦ hanswered r hr cause hfails,
          hname, hfails⟩

/-- The elaboration of a program fails because of an import if and only if one of the requests of
the program fails, for the same cause. -/
theorem fails_checkProgram_iff {filename : String} :
    (checkProgram ⟨fuel, load⟩ session.checkerEnv program).Fails s (.importFailed filename cause) ↔
      ∃ r ∈ requests fuel session load program s,
        r.name = filename ∧ (load r.name).Fails r.state cause := by
  have hsteps : Check.SameSteps ⟨fuel, noting load⟩ ⟨fuel, load⟩
      (checkProgram ⟨fuel, noting load⟩ session.checkerEnv program)
      (checkProgram ⟨fuel, load⟩ session.checkerEnv program) := checkProgram_sameSteps (by rfl) _ _
  obtain ⟨new, hnew, hfails⟩ := failures_of_sameSteps hsteps s []
  rw [requests, hnew]
  exact hfails filename cause

/-- What fails alone has all its requests answered. -/
theorem FailsAlone.answered (h : FailsAlone fuel session load program s cause) {r : Request}
    (hr : r ∈ requests fuel session load program s) (cause' : SessionError) :
    ¬ (load r.name).Fails r.state cause' := by
  intro hfails
  have himport := fails_checkProgram_iff.mpr ⟨r, hr, rfl, hfails⟩
  cases h with
  | rejected h => cases h.symm.trans himport
  | abnormal elaborates | runtime elaborates => exact elaborates.not_fails himport

/-- A program fails alone or because of one of its requests. -/
theorem fails_run_iff :
    (run fuel session load program).Fails s cause ↔
      FailsAlone fuel session load program s cause ∨
        ∃ r ∈ requests fuel session load program s, (load r.name).Fails r.state cause := by
  rw [run_eq]
  simp only [fails_bind_iff, fails_mapError_iff, returns_mapError_iff, not_fails_pure, and_false,
    exists_false, or_false]
  constructor
  · rintro (⟨refusal, hrefusal, rfl⟩ | ⟨elaborated, s₁, helaborated, hrest⟩)
    · cases refusal with
      | rejected cause => exact .inl (.rejected hrefusal)
      | importFailed filename cause =>
        obtain ⟨r, hr, -, hfails⟩ := fails_checkProgram_iff.mp hrefusal
        exact .inr ⟨r, hr, hfails⟩
    · rcases hrest with ⟨refusal, hrefusal, rfl⟩ | ⟨normalized, s₂, hnormalized, hvalue⟩
      · obtain ⟨cause, rfl⟩ := Check.normalized_fails hrefusal
        exact .inl (.abnormal helaborated hrefusal)
      · obtain ⟨cause, rfl⟩ := fails_evaluateIn hvalue
        exact .inl (.runtime helaborated hnormalized hvalue)
  · rintro (halone | ⟨r, hr, hfails⟩)
    · cases halone with
      | rejected h => exact .inl ⟨_, h, rfl⟩
      | abnormal elaborates h => exact .inr ⟨_, _, elaborates, .inl ⟨_, h, rfl⟩⟩
      | runtime elaborates normalizes h =>
        exact .inr ⟨_, _, elaborates, .inr ⟨_, _, normalizes, h⟩⟩
    · exact .inl ⟨_, fails_checkProgram_iff.mpr ⟨r, hr, rfl, hfails⟩, rfl⟩

end Programs

/-! ### Chains of failing imports -/

/-- The failure of a request, with the modules that it goes through, the requested one first, and
the cause for which the last of them cannot be loaded. -/
inductive FailsThrough (fuel : Nat) (session : Session) :
    (depth : Nat) → Request → List String → SessionError → Prop
  /-- The source does not have the module. -/
  | missing {depth : Nat} {r : Request} (reads : r.reads = true)
      (absent : session.source.read? r.name = none) :
      FailsThrough fuel session (depth + 1) r [r.name] (.moduleNotFound r.name)
  /-- The module is being loaded. -/
  | cyclic {depth : Nat} {r : Request} {cycle : List String}
      (uncached : r.state.host.cached? r.name = none)
      (cyclic : r.recorded.host.cycle? r.name = some cycle) :
      FailsThrough fuel session (depth + 1) r [r.name] (.importCycle r.name cycle)
  /-- The program of the module fails, and not because of an import. -/
  | alone {depth : Nat} {r : Request} {program : Term} {cause : SessionError}
      (reads : r.reads = true) (found : session.source.read? r.name = some program)
      (alone : FailsAlone fuel session (loadModule fuel session depth) program r.entered cause) :
      FailsThrough fuel session (depth + 1) r [r.name] cause
  /-- The program of the module makes a request that fails. -/
  | imported {depth : Nat} {r r' : Request} {program : Term} {chain : List String}
      {cause : SessionError} (reads : r.reads = true)
      (found : session.source.read? r.name = some program)
      (imports : r' ∈ requests fuel session (loadModule fuel session depth) program r.entered)
      (inner : FailsThrough fuel session depth r' chain cause) :
      FailsThrough fuel session (depth + 1) r (r.name :: chain) cause

section Requests

variable {fuel : Nat} {session : Session} {depth : Nat} {r : Request} {cause : SessionError}

/-- A module that has to be read cannot be loaded because its program fails. -/
theorem fails_loadModule_iff_of_reads {program : Term} (hreads : r.reads = true)
    (hread : session.source.read? r.name = some program) :
    (loadModule fuel session (depth + 1) r.name).Fails r.state cause ↔
      (run fuel session (loadModule fuel session depth) program).Fails r.entered cause := by
  obtain ⟨hcached, hcycle⟩ := r.reads_iff_recorded.mp hreads
  unfold Fails outcome
  rw [start_request, hcached, hcycle, hread]
  dsimp only
  generalize (run fuel session (loadModule fuel session depth) program).start r.entered = result
  obtain ⟨stop | x, s⟩ := result
  · exact ⟨fun h ↦ congrArg _ (Except.error.inj h), fun h ↦ congrArg _ (Except.error.inj h)⟩
  · exact ⟨nofun, nofun⟩

/-- A request fails for the cause at the end of a chain of imports. -/
theorem FailsThrough.fails {chain : List String}
    (h : FailsThrough fuel session depth r chain cause) :
    (loadModule fuel session depth r.name).Fails r.state cause := by
  induction h with
  | missing reads absent =>
    obtain ⟨hcached, hcycle⟩ := Request.reads_iff_recorded.mp reads
    rw [Fails, outcome, start_request, hcached, hcycle, absent]
  | cyclic uncached cyclic =>
    rw [← Request.cached?_recorded] at uncached
    rw [Fails, outcome, start_request, uncached, cyclic]
  | alone reads found alone =>
    exact (fails_loadModule_iff_of_reads reads found).mpr (fails_run_iff.mpr (.inl alone))
  | imported reads found imports _ ih =>
    refine (fails_loadModule_iff_of_reads reads found).mpr (fails_run_iff.mpr (.inr ?_))
    exact ⟨_, imports, ih⟩

/-- Every failure of a request is at the end of such a chain. -/
theorem fails_loadModule_iff :
    (loadModule fuel session depth r.name).Fails r.state cause ↔
      ∃ chain, FailsThrough fuel session depth r chain cause := by
  refine ⟨fun h ↦ ?_, fun ⟨_, h⟩ ↦ h.fails⟩
  induction depth generalizing r with
  | zero => cases h
  | succ depth ih =>
    have hfails := h
    rw [Fails, outcome, start_request] at h
    cases hcached : r.recorded.host.cached? r.name with
    | some result =>
      rw [hcached] at h
      cases h
    | none =>
      cases hcycle : r.recorded.host.cycle? r.name with
      | some cycle =>
        rw [hcached, hcycle] at h
        cases h
        rw [Request.cached?_recorded] at hcached
        exact ⟨[r.name], .cyclic hcached hcycle⟩
      | none =>
        have hreads : r.reads = true := r.reads_iff_recorded.mpr ⟨hcached, hcycle⟩
        cases hread : session.source.read? r.name with
        | none =>
          rw [hcached, hcycle, hread] at h
          cases h
          exact ⟨[r.name], .missing hreads hread⟩
        | some program =>
          rcases fails_run_iff.mp ((fails_loadModule_iff_of_reads hreads hread).mp hfails) with
            halone | ⟨r', hr', hfails⟩
          · exact ⟨[r.name], .alone hreads hread halone⟩
          · obtain ⟨chain, hchain⟩ := ih hfails
            exact ⟨r.name :: chain, .imported hreads hread hr' hchain⟩

end Requests

/-! ### Keeping the cause aside -/

/-- What an execution reports when the typing rules know of a failed import no more than a
message. -/
inductive Report where
  | session (cause : SessionError)
  | failedImport (filename message : String)

namespace Report

/-- The wording of a report. -/
def message : Report → String
  | session cause => cause.message
  | failedImport filename message => Refusal.message id (.importFailed filename message)

/-- The report of a refusal: in place of a failed import, what is in the cell. -/
def ofRefusal (cell : Option Report) : Refusal String → Report
  | .rejected cause => session (.type cause)
  | .importFailed filename message => cell.getD (failedImport filename message)

end Report

/-- Steps that load modules, and report how they fail. -/
abbrev ReportedLoad (α : Type) := Run (Progress Modules) Report α

/-- The report of a failure, if there is one. -/
def report? {α : Type} : Outcome Report α → Option Report
  | .error (.error report) => some report
  | _ => none

/-- Answer requests as `load` does, but let only the message of a failure be known. The first report
of a failure goes to the cell. -/
def keeping (load : String → ReportedLoad (Classified Value)) (name : String) :
    Run (Progress (Modules × Option Report)) String (Classified Value) :=
  ExceptT.mk fun s ↦
    let after := (load name).start ⟨s.host.1, s.journal⟩
    (after.1.mapError (Stop.map Report.message),
      ⟨(after.2.host, s.host.2.or (report? after.1)), after.2.journal⟩)

/-- A check with a cell of its own, which is empty at first. -/
def reporting {α : Type} (check : Check (Modules × Option Report) String α) : ReportedLoad α :=
  ExceptT.mk fun s ↦
    let after := check.start ⟨(s.host, none), s.journal⟩
    (after.1.mapError (Stop.map (Report.ofRefusal after.2.host.2)),
      ⟨after.2.host.1, after.2.journal⟩)

/-- `run`, with reports. -/
def runReporting (fuel : Nat) (session : Session)
    (load : String → ReportedLoad (Classified Value)) (program : Term) :
    ReportedLoad (Classified Core × Classified Value) := do
  let elaborated ← reporting (checkProgram ⟨fuel, keeping load⟩ session.checkerEnv program)
  let normalized ← reporting (Check.normalized fuel ⟨session.checkerEnv⟩ elaborated)
  let value ← Run.mapError .session (evaluateIn fuel session elaborated)
  return (normalized, normalized.withTerm value)

/-- `loadModule`, with reports. -/
def loadReporting (fuel : Nat) (session : Session) :
    (depth : Nat) → String → ReportedLoad (Classified Value)
  | 0, _ => Run.outOfFuel
  | depth + 1, name => ExceptT.mk fun s ↦
    let r : Request := ⟨name, s⟩
    match r.recorded.host.cached? name, r.recorded.host.cycle? name,
        session.source.read? name with
    | some result, _, _ => (.ok result, r.recorded.record (.foundInCache name))
    | none, some cycle, _ =>
      (.error (.error (.session (.importCycle name cycle))), r.recorded)
    | none, none, none =>
      (.error (.error (.session (.moduleNotFound name))), r.recorded.record (.loading name))
    | none, none, some program =>
      match (runReporting fuel session (loadReporting fuel session depth) program).start
          r.entered with
      | (.ok (_, result), s) => (.ok result, { s with host := s.host.leave.keep name result })
      | (.error stop, s) => (.error stop, { s with host := s.host.leave })

/-- `execute`, with reports. -/
def executeReporting (fuel : Nat) (program : Term) :
    Run (Progress Session) Report (Classified Value) :=
  ExceptT.mk fun s ↦
    let session := s.host
    let (outcome, after) :=
      (runReporting fuel session (loadReporting fuel session session.loadDepth) program).start
        ⟨session.modules, s.journal⟩
    (outcome.map Prod.snd, ⟨{ session with modules := after.host }, after.journal⟩)

/-- A refusal, of which only the message of a failed import is left. -/
def worded : Refusal SessionError → Refusal String
  | .rejected cause => .rejected cause
  | .importFailed filename cause => .importFailed filename cause.message

/-- What a check leaves in an empty cell. -/
def left {α : Type} : Outcome (Refusal SessionError) α → Option Report
  | .error (.error (.importFailed _ cause)) => some (.session cause)
  | _ => none

theorem start_keeping (load : String → ReportedLoad (Classified Value)) (name : String)
    (s : Progress (Modules × Option Report)) :
    (keeping load name).start s =
      let after := (load name).start ⟨s.host.1, s.journal⟩
      (after.1.mapError (Stop.map Report.message),
        ⟨(after.2.host, s.host.2.or (report? after.1)), after.2.journal⟩) := rfl

theorem start_reporting {α : Type} (check : Check (Modules × Option Report) String α)
    (s : Progress Modules) :
    (reporting check).start s =
      let after := check.start ⟨(s.host, none), s.journal⟩
      (after.1.mapError (Stop.map (Report.ofRefusal after.2.host.2)),
        ⟨after.2.host.1, after.2.journal⟩) := rfl

/-- Computations that report the causes of others, one after the other. -/
theorem start_bind_mapError {α β : Type} {a : ReportedLoad α} {b : Load α}
    {f : α → ReportedLoad β} {g : α → Load β} {s : Progress Modules}
    (h : a.start s = (Run.mapError .session b).start s)
    (hf : ∀ x s₁, (f x).start s₁ = (Run.mapError .session (g x)).start s₁) :
    (a >>= f).start s = (Run.mapError .session (b >>= g)).start s := by
  rw [start_bind, h, start_mapError, start_mapError, start_bind]
  rcases b.start s with ⟨stop | x, s₁⟩
  · rfl
  · exact hf x s₁

section Reports

variable {fuel : Nat} {session : Session} {load : String → Load (Classified Value)}
  {load' : String → ReportedLoad (Classified Value)}
  (hload : ∀ name s, (load' name).start s = (Run.mapError .session (load name)).start s)

include hload

/-- If loading reports its causes, the cell is filled when a check fails because of an import, and
not before. -/
theorem start_of_sameSteps {α : Type} {a : Check (Modules × Option Report) String α}
    {b : Check Modules SessionError α}
    (h : Check.SameSteps ⟨fuel, keeping load'⟩ ⟨fuel, load⟩ a b) (s : Progress Modules) :
    a.start ⟨(s.host, none), s.journal⟩ =
      ((b.start s).1.mapError (Stop.map worded),
        ⟨((b.start s).2.host, left (b.start s).1), (b.start s).2.journal⟩) := by
  induction h generalizing s with
  | pure | stamp | record => rfl
  | stop reason => cases reason <;> rfl
  | request filename =>
    rw [start_mapError, start_mapError, start_keeping, hload, start_mapError]
    rcases (load filename).start s with ⟨⟨_ | _⟩ | x, s₁⟩ <;> rfl
  | @bind _ _ a b f g _ _ ihfirst ihrest =>
    rw [start_bind, start_bind, ihfirst s]
    rcases b.start s with ⟨⟨⟨_ | _⟩ | _⟩ | x, s₁⟩
    · rfl
    · rfl
    · rfl
    · exact ihrest x s₁

/-- The failure that a check reports is its own, or that of its import. -/
theorem start_reporting_eq {α : Type} {a : Check (Modules × Option Report) String α}
    {b : Check Modules SessionError α}
    (h : Check.SameSteps ⟨fuel, keeping load'⟩ ⟨fuel, load⟩ a b) (s : Progress Modules) :
    (reporting a).start s =
      (Run.mapError .session (Run.mapError SessionError.ofRefusal b)).start s := by
  rw [start_reporting, start_of_sameSteps hload h s, start_mapError, start_mapError]
  rcases b.start s with ⟨⟨⟨_ | _⟩ | _⟩ | x, s₁⟩ <;> rfl

theorem start_runReporting (program : Term) (s : Progress Modules) :
    (runReporting fuel session load' program).start s =
      (Run.mapError .session (run fuel session load program)).start s := by
  have hsteps : Check.SameSteps ⟨fuel, keeping load'⟩ ⟨fuel, load⟩
      (checkProgram ⟨fuel, keeping load'⟩ session.checkerEnv program)
      (checkProgram ⟨fuel, load⟩ session.checkerEnv program) := checkProgram_sameSteps (by rfl) _ _
  rw [run_eq]
  refine start_bind_mapError (start_reporting_eq hload hsteps s) fun elaborated s₁ ↦ ?_
  have hnormalized : Check.SameSteps ⟨fuel, keeping load'⟩ ⟨fuel, load⟩
      (Check.normalized fuel ⟨session.checkerEnv⟩ elaborated)
      (Check.normalized fuel ⟨session.checkerEnv⟩ elaborated) := inferInstance
  refine start_bind_mapError (start_reporting_eq hload hnormalized s₁) fun normalized s₂ ↦ ?_
  exact start_bind_mapError rfl fun value s₃ ↦ rfl

end Reports

/-- What loading does with a request, when it reports its failure. -/
theorem start_loadReporting_succ {fuel : Nat} {session : Session} (depth : Nat) (r : Request) :
    (loadReporting fuel session (depth + 1) r.name).start r.state =
      match r.recorded.host.cached? r.name, r.recorded.host.cycle? r.name,
          session.source.read? r.name with
      | some result, _, _ => (.ok result, r.recorded.record (.foundInCache r.name))
      | none, some cycle, _ =>
        (.error (.error (.session (.importCycle r.name cycle))), r.recorded)
      | none, none, none =>
        (.error (.error (.session (.moduleNotFound r.name))), r.recorded.record (.loading r.name))
      | none, none, some program =>
        match (runReporting fuel session (loadReporting fuel session depth) program).start
            r.entered with
        | (.ok (_, result), s) => (.ok result, { s with host := s.host.leave.keep r.name result })
        | (.error stop, s) => (.error stop, { s with host := s.host.leave }) := rfl

theorem start_loadReporting {fuel : Nat} {session : Session} (depth : Nat) (name : String)
    (s : Progress Modules) :
    (loadReporting fuel session depth name).start s =
      (Run.mapError .session (loadModule fuel session depth name)).start s := by
  induction depth generalizing name s with
  | zero => rfl
  | succ depth ih =>
    rw [start_mapError, start_request depth ⟨name, s⟩, start_loadReporting_succ depth ⟨name, s⟩]
    generalize Request.mk name s = r
    cases r.recorded.host.cached? r.name with
    | some result => rfl
    | none =>
      cases r.recorded.host.cycle? r.name with
      | some cycle => rfl
      | none =>
        cases session.source.read? r.name with
        | none => rfl
        | some program =>
          dsimp only
          rw [start_runReporting ih, start_mapError]
          rcases (run fuel session (loadModule fuel session depth) program).start r.entered with
            ⟨stop | ⟨_, result⟩, s₁⟩ <;> rfl

/-- Keeping the cause aside changes nothing. -/
theorem start_executeReporting (fuel : Nat) (program : Term) (s : Progress Session) :
    (executeReporting fuel program).start s =
      (Run.mapError .session (execute fuel program)).start s := by
  have hrun : (runReporting fuel s.host (loadReporting fuel s.host s.host.loadDepth) program).start
      ⟨s.host.modules, s.journal⟩ =
        ((ran fuel program s).1.mapError (Stop.map .session), (ran fuel program s).2) :=
    start_runReporting (start_loadReporting s.host.loadDepth) program ⟨s.host.modules, s.journal⟩
  have hstart : (executeReporting fuel program).start s =
      let after := (runReporting fuel s.host (loadReporting fuel s.host s.host.loadDepth)
        program).start ⟨s.host.modules, s.journal⟩
      (after.1.map Prod.snd, ⟨{ s.host with modules := after.2.host }, after.2.journal⟩) := rfl
  rw [hstart, hrun, start_mapError, start_execute, withLoaded]
  rcases ran fuel program s with ⟨stop | x, s₁⟩ <;> rfl

/-! ### Executions that fail -/

theorem fails_execute_iff_fails_run {fuel : Nat} {program : Term} {s : Progress Session}
    {cause : SessionError} :
    (execute fuel program).Fails s cause ↔
      (run fuel s.host (loadModule fuel s.host s.host.loadDepth) program).Fails
        ⟨s.host.modules, s.journal⟩ cause := by
  rw [fails_execute_iff, Fails]
  change ending (ran fuel program s).1 = _ ↔ (ran fuel program s).1 = _
  cases (ran fuel program s).1 with
  | error stop =>
    exact ⟨fun h ↦ congrArg _ (Except.error.inj h), fun h ↦ congrArg _ (Except.error.inj h)⟩
  | ok x => exact ⟨nofun, nofun⟩

/-- In every session: if a request of a program fails through a chain of modules, at whose end a
module is missing, is being loaded, or has a program that fails by itself, then executing the
program fails for the cause at the end of the chain. Otherwise the execution fails only for a cause
of its own program, while all requests of the program are answered. It makes no difference if the
typing rules are told no more of a failed import than a message, as long as the cause is kept aside;
so what is reported is never a failed import. -/
theorem failedImports_reportRootCause (fuel : Nat) (program : Term) (s : Progress Session) :
    let start : Progress Modules := ⟨s.host.modules, s.journal⟩
    let load := loadModule fuel s.host s.host.loadDepth
    let made := requests fuel s.host load program start
    (∀ r ∈ made, ∀ chain cause, FailsThrough fuel s.host s.host.loadDepth r chain cause →
      (execute fuel program).Fails s cause ∧
        (executeReporting fuel program).Fails s (.session cause)) ∧
    (∀ cause, (execute fuel program).Fails s cause →
      (∃ r ∈ made, ∃ chain, FailsThrough fuel s.host s.host.loadDepth r chain cause) ∨
        FailsAlone fuel s.host load program start cause ∧
          ∀ r ∈ made, ∀ cause', ¬ (load r.name).Fails r.state cause') ∧
    (executeReporting fuel program).start s =
      (Run.mapError .session (execute fuel program)).start s ∧
    ∀ filename message,
      ¬ (executeReporting fuel program).Fails s (.failedImport filename message) := by
  intro start load made
  have hreporting := start_executeReporting fuel program s
  have hfails (report : Report) : (executeReporting fuel program).Fails s report ↔
      ∃ cause, (execute fuel program).Fails s cause ∧ Report.session cause = report := by
    rw [← fails_mapError_iff, Fails, outcome, hreporting]
    rfl
  refine ⟨fun r hr chain cause hchain ↦ ?_, fun cause hcause ↦ ?_, hreporting, ?_⟩
  · have hcause : (execute fuel program).Fails s cause :=
      fails_execute_iff_fails_run.mpr (fails_run_iff.mpr (.inr ⟨r, hr, hchain.fails⟩))
    exact ⟨hcause, (hfails _).mpr ⟨cause, hcause, rfl⟩⟩
  · rcases fails_run_iff.mp (fails_execute_iff_fails_run.mp hcause) with halone | ⟨r, hr, hcause⟩
    · exact .inr ⟨halone, fun r hr ↦ halone.answered hr⟩
    · exact .inl ⟨r, hr, fails_loadModule_iff.mp hcause⟩
  · intro filename message h
    obtain ⟨cause, -, hcause⟩ := (hfails _).mp h
    cases hcause

/-- The first module imports the second, which imports a third, which the source does not have. -/
def dangling : Progress Session :=
  ⟨{ withPrelude with source := [[("one", .typeOf (.importing "two")),
    ("two", .letIn "x" (.importing "three") (.var "x"))]] }, .empty⟩

theorem failedImports_reportRootCause_dangling :
    let program : Term := .letIn "x" (.importing "one") (.var "x")
    ∃ r ∈ requests 50 dangling.host (loadModule 50 dangling.host dangling.host.loadDepth) program
        ⟨dangling.host.modules, dangling.journal⟩,
      FailsThrough 50 dangling.host dangling.host.loadDepth r ["one", "two", "three"]
        (.moduleNotFound "three") ∧
      (executeReporting 50 program).Fails dangling (.session (.moduleNotFound "three")) := by
  intro program
  let load (depth : Nat) : String → Load (Classified Value) := loadModule 50 dangling.host depth
  have hrequests : (requests 50 dangling.host (load 3) program
      ⟨dangling.host.modules, dangling.journal⟩).any fun r ↦ r.name == "one" && r.reads &&
        (requests 50 dangling.host (load 2) (.typeOf (.importing "two")) r.entered).any fun r ↦
          r.name == "two" && r.reads &&
            (requests 50 dangling.host (load 1) (.letIn "x" (.importing "three") (.var "x"))
              r.entered).any fun r ↦ r.name == "three" && r.reads := by
    decide +kernel
  simp only [List.any_eq_true, Bool.and_eq_true, beq_iff_eq] at hrequests
  obtain ⟨⟨_, s₁⟩, hone, ⟨rfl, hreads₁⟩, ⟨_, s₂⟩, htwo, ⟨rfl, hreads₂⟩, ⟨_, s₃⟩, hthree, rfl,
    hreads₃⟩ := hrequests
  have hchain : FailsThrough 50 dangling.host 3 ⟨"one", s₁⟩ ["one", "two", "three"]
      (.moduleNotFound "three") :=
    .imported hreads₁ rfl htwo (.imported hreads₂ rfl hthree (.missing hreads₃ rfl))
  have hfails := (failedImports_reportRootCause 50 program dangling).1 _ hone _ _ hchain
  exact ⟨_, hone, hchain, hfails.2⟩

end Session

end RankedTT
