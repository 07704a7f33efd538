import RankedTT.Proofs.Reachability
import RankedTT.Proofs.SameSteps

/-!
The requests of an execution. A host can note every request that it is asked, together with the
state in which it is asked; apart from the notes, the elaboration of a program is the same. To
answer a request, the program of the module may have to be run, which makes requests in turn. What
happens in the course of an execution, request by request, is described by a relation, so that what
holds of the states in between, and of all requests at once, is shown by induction on it.
-/

set_option autoImplicit false
set_option relaxedAutoImplicit false

namespace RankedTT

open Run

/-- The modules that were read from the source, the latest first. -/
def Journal.reads (journal : Journal) : List String := journal.events.filterMap Event.reads?

/-- A request for a module, and the state in which it is made. -/
structure Request where
  name : String
  state : Progress Modules

/-- No module is being loaded twice, and none that is being loaded is loaded. -/
abbrev Modules.Tidy (modules : Modules) : Prop := modules.Sound fun _ _ _ ↦ True

namespace Request

variable (r : Request)

/-- The modules that are being loaded when the request is made, the outermost first. -/
def loading : List String := r.state.host.loading

/-- Whether the module has to be read from the source: it is neither loaded nor being loaded. -/
def reads : Bool := (r.state.host.cached? r.name).isNone && !r.loading.contains r.name

/-- The request is recorded as an import of the module that makes it. -/
def recorded : Progress Modules := { r.state with host := r.state.host.request r.name }

/-- The state in which the program of the requested module starts to run. -/
def entered : Progress Modules :=
  { r.recorded.record (.loading r.name) with host := r.recorded.host.enter r.name }

variable {r}

theorem reads_iff : r.reads = true ↔ r.state.host.cached? r.name = none ∧ r.name ∉ r.loading := by
  simp [reads]

@[simp]
theorem cached?_recorded {x : String} : r.recorded.host.cached? x = r.state.host.cached? x :=
  Modules.cached?_request

@[simp]
theorem loading_recorded : r.recorded.host.loading = r.loading := Modules.loading_request

theorem reads_iff_recorded :
    r.reads = true ↔
      r.recorded.host.cached? r.name = none ∧ r.recorded.host.cycle? r.name = none := by
  rw [reads_iff, cached?_recorded, Modules.cycle?_eq_none_iff, loading_recorded]

@[simp]
theorem cached?_entered {x : String} : r.entered.host.cached? x = r.state.host.cached? x :=
  cached?_recorded

@[simp]
theorem loading_entered : r.entered.host.loading = r.loading ++ [r.name] :=
  congrArg (· ++ [r.name]) loading_recorded

end Request

namespace Session

/-- Answer requests as `load` does, and note them in order. Nothing else is changed by it, see
`course_of_sameSteps`. -/
def noting (load : String → Load (Classified Value)) (name : String) :
    Run (Progress (Modules × List Request)) SessionError (Classified Value) :=
  ExceptT.mk fun s ↦
    let state : Progress Modules := ⟨s.host.1, s.journal⟩
    let (outcome, after) := (load name).start state
    (outcome, ⟨(after.host, s.host.2 ++ [⟨name, state⟩]), after.journal⟩)

/-- The requests that a program makes, in order. -/
def requests (fuel : Nat) (session : Session) (load : String → Load (Classified Value))
    (program : Term) (s : Progress Modules) : List Request :=
  ((checkProgram ⟨fuel, noting load⟩ session.checkerEnv program).start
    ⟨(s.host, []), s.journal⟩).2.host.2

/-- A request, followed by those that are made to answer it, at most `depth` modules deep. -/
def requestsFor (fuel : Nat) (session : Session) : (depth : Nat) → Request → List Request
  | 0, _ => []
  | depth + 1, r =>
    r :: match if r.reads then session.source.read? r.name else none with
      | some program =>
        (requests fuel session (loadModule fuel session depth) program r.entered).flatMap
          (requestsFor fuel session depth)
      | none => []

/-- All requests that are made while a program is executed, in order. -/
def allRequests (fuel : Nat) (program : Term) (s : Progress Session) : List Request :=
  let depth := s.host.loadDepth
  (requests fuel s.host (loadModule fuel s.host depth) program ⟨s.host.modules, s.journal⟩).flatMap
    (requestsFor fuel s.host depth)

/-! ### The course of an execution -/

/-- What happens from one state to another: the requests that are made, in order, and how it
ends. -/
inductive Course :
    Progress Modules → List Request → Outcome SessionError Unit → Progress Modules → Prop
  /-- Nothing is requested, and no cycle is reported. -/
  | quiet {s s₁ : Progress Modules} {o : Outcome SessionError Unit} (host : s₁.host = s.host)
      (reads : s₁.journal.reads = s.journal.reads)
      (cause : ∀ m cycle, o ≠ .error (.error (.importCycle m cycle))) : Course s [] o s₁
  | append {s s₁ s₂ : Progress Modules} {t t₁ : List Request} {o : Outcome SessionError Unit}
      (first : Course s t (.ok ()) s₁) (rest : Course s₁ t₁ o s₂) : Course s (t ++ t₁) o s₂
  /-- A loaded module is requested. -/
  | found {r : Request} {result : Classified Value}
      (cached : r.state.host.cached? r.name = some result) :
      Course r.state [r] (.ok ()) (r.recorded.record (.foundInCache r.name))
  /-- A module is requested that is being loaded. -/
  | cyclic {r : Request} {cycle : List String} (uncached : r.state.host.cached? r.name = none)
      (cyclic : r.recorded.host.cycle? r.name = some cycle) :
      Course r.state [r] (.error (.error (.importCycle r.name cycle))) r.recorded
  /-- A module is requested that the source does not have. -/
  | missing {r : Request} (reads : r.reads = true) :
      Course r.state [r] (.error (.error (.moduleNotFound r.name)))
        (r.recorded.record (.loading r.name))
  /-- The program of a requested module is run, and does not succeed. -/
  | stops {r : Request} {s : Progress Modules} {t : List Request} {stop : Stop SessionError}
      (reads : r.reads = true) (inner : Course r.entered t (.error stop) s) :
      Course r.state (r :: t) (.error stop) { s with host := s.host.leave }
  | loads {r : Request} {s : Progress Modules} {t : List Request} (reads : r.reads = true)
      (inner : Course r.entered t (.ok ()) s) (result : Classified Value) :
      Course r.state (r :: t) (.ok ()) { s with host := s.host.leave.keep r.name result }

/-- Whether it ended well, and how it stopped otherwise. -/
def ending {α : Type} (o : Outcome SessionError α) : Outcome SessionError Unit := o.map fun _ ↦ ()

/-- Started in `s`, the computation makes the requests `t` in its course. -/
def Makes {α : Type} (action : Load α) (s : Progress Modules) (t : List Request) : Prop :=
  Course s t (ending (action.start s).1) (action.start s).2

/-- The computation makes no requests. -/
def Quiet {α : Type} (action : Load α) : Prop := ∀ s, Makes action s []

section Quiet

variable {α β : Type} {s : Progress Modules} {t : List Request}

theorem Makes.bind_quiet {a : Load α} {f : α → Load β} (ha : Makes a s t)
    (hf : ∀ x, Quiet (f x)) : Makes (a >>= f) s t := by
  unfold Makes at ha ⊢
  rw [start_bind]
  generalize a.start s = r at ha
  obtain ⟨stop | x, s₁⟩ := r
  · exact ha
  · have hrest := ha.append (hf x s₁)
    rwa [List.append_nil] at hrest

theorem Quiet.bind {a : Load α} {f : α → Load β} (ha : Quiet a) (hf : ∀ x, Quiet (f x)) :
    Quiet (a >>= f) :=
  fun s ↦ (ha s).bind_quiet hf

theorem Quiet.pure (x : α) : Quiet (Pure.pure x : Load α) :=
  fun _ ↦ .quiet rfl rfl nofun

/-- Nothing is changed but the journal, in which nothing was read, and no cycle is reported. -/
theorem Quiet.of_keeps {a : Load α}
    (hkeeps : ∀ s, (a.start s).2.host = s.host ∧ (a.start s).2.journal.reads = s.journal.reads)
    (hfails : ∀ s m cycle, ¬ a.Fails s (.importCycle m cycle)) : Quiet a := by
  refine fun s ↦ .quiet (hkeeps s).1 (hkeeps s).2 fun m cycle h ↦ hfails s m cycle ?_
  unfold Fails outcome
  generalize (a.start s).1 = o at h
  cases o with
  | error stop =>
    injection h with h
    rw [h]
  | ok x => cases h

end Quiet

end Session

/-! ### Evaluation -/

section Evaluation

variable {names : List String}

theorem HostFn.call_keeps_reads (function : HostFn) (argument : Value) :
    Keeps (fun journal ↦ journal.reads = names) (function.call argument) := by
  cases function with
  | binary op => exact .bind (.modifyGet fun _ hs ↦ hs) fun _ ↦ .pure _
  | applied op lhs => exact .ofExcept
  | identity => exact .pure _
  | failing => exact fun _ hs ↦ hs
  | halving => exact .ofExcept

theorem Core.evalWith_keeps_reads {eval : Env Value → Core → Eval Value}
    (heval : ∀ env t, Keeps (fun journal ↦ journal.reads = names) (eval env t)) (env : Env Value)
    (t : Core) : Keeps (fun journal ↦ journal.reads = names) (t.evalWith eval env) := by
  cases t with
  | univ | quant | signature | lam | const => exact .pure _
  | var => exact .ofExcept
  | record members => exact (Keeps.mapM (heval env) members).bind fun _ ↦ .pure _
  | app =>
    refine (heval _ _).bind fun function ↦ (heval _ _).bind fun argument ↦ ?_
    cases function with
    | closure => exact heval _ _
    | host function => exact .mapError (function.call_keeps_reads argument)
    | absent | int | str | record => exact fun _ hs ↦ hs
  | proj =>
    refine (heval _ _).bind fun record ↦ ?_
    cases record with
    | record => exact .ofOption
    | absent | int | str | closure | host => exact fun _ hs ↦ hs

theorem Core.eval_keeps_reads (fuel : Nat) (env : Env Value) (t : Core) :
    Keeps (fun journal ↦ journal.reads = names) (t.eval fuel env) := by
  induction fuel generalizing env t with
  | zero => exact fun _ hs ↦ hs
  | succ fuel ih =>
    exact (t.evalWith_keeps_reads ih env).bind fun _ ↦ .bind (fun _ hs ↦ hs) fun _ ↦ .pure _

/-- Evaluation reads no module. -/
theorem evaluate_keeps_reads (fuel : Nat) (env : Env Value) (judgement : Classified Core) :
    Keeps (fun journal ↦ journal.reads = names) (evaluate fuel env judgement) := by
  unfold evaluate
  split
  · exact judgement.term.eval_keeps_reads fuel env
  · exact fun _ hs ↦ hs

end Evaluation

namespace Session

theorem quiet_evaluateIn {fuel : Nat} {session : Session} (elaborated : Classified Core) :
    Quiet (evaluateIn fuel session elaborated) := by
  unfold evaluateIn
  split
  · refine .of_keeps (fun s ↦ ⟨rfl, ?_⟩) fun s m cycle h ↦ ?_
    · exact evaluate_keeps_reads fuel session.runtimeEnv elaborated s.journal rfl
    · obtain ⟨cause, -, hcause⟩ := Load.fails_of_ofEval h
      cases hcause
  · exact .pure _

theorem quiet_normalized {fuel : Nat} {ctx : Ctx} (judgement : Classified Core) :
    Quiet (Run.mapError .ofRefusal (Check.normalized fuel ctx judgement)) := by
  refine .of_keeps (fun s ↦ ?_) fun s m cycle h ↦ ?_
  · exact Check.normalized_keeps_of_stamp
      (I := fun s₁ ↦ s₁.host = s.host ∧ s₁.journal.reads = s.journal.reads)
      (fun _ _ hs ↦ hs) fuel ctx judgement s ⟨rfl, rfl⟩
  · obtain ⟨refusal, hrefusal, hcause⟩ := fails_mapError_iff.mp h
    obtain ⟨_, rfl⟩ := Check.normalized_fails hrefusal
    cases hcause

/-! ### Requests of a program -/

section Programs

variable {fuel : Nat} {session : Session} {load : String → Load (Classified Value)}
  {answers : Request → List Request}

/-- Noting the requests changes nothing else, and what happens is made up of what happens to answer
the requests. -/
theorem course_of_sameSteps
    (hload : ∀ r, Makes (load r.name) r.state (answers r)) {α : Type}
    {a : Check (Modules × List Request) SessionError α} {b : Check Modules SessionError α}
    (h : Check.SameSteps ⟨fuel, noting load⟩ ⟨fuel, load⟩ a b) (s : Progress Modules)
    (noted : List Request) :
    ∃ new, a.start ⟨(s.host, noted), s.journal⟩ =
        ((b.start s).1, ⟨((b.start s).2.host, noted ++ new), (b.start s).2.journal⟩) ∧
      Makes (Run.mapError .ofRefusal b) s (new.flatMap answers) := by
  induction h generalizing s noted with
  | pure x => exact ⟨[], by rw [List.append_nil]; rfl, .quiet rfl rfl nofun⟩
  | stop reason =>
    refine ⟨[], by rw [List.append_nil]; rfl, .quiet rfl rfl ?_⟩
    cases reason <;> nofun
  | stamp t => exact ⟨[], by rw [List.append_nil]; rfl, .quiet rfl rfl nofun⟩
  | @record event hevent =>
    refine ⟨[], by rw [List.append_nil]; rfl, .quiet rfl ?_ nofun⟩
    exact List.filterMap_cons_none hevent
  | request filename =>
    refine ⟨[⟨filename, s⟩], rfl, ?_⟩
    have hcourse := hload ⟨filename, s⟩
    rw [List.flatMap_singleton]
    unfold Makes at hcourse ⊢
    rw [start_mapError, start_mapError]
    change Course s _ (ending ((((load filename).start s).1.mapError _).mapError _))
      ((load filename).start s).2
    generalize (load filename).start s = r at hcourse
    obtain ⟨⟨cause | _⟩ | x, s₁⟩ := r <;> exact hcourse
  | @bind _ _ a b f g first rest ihfirst ihrest =>
    obtain ⟨new, hnew, hfirst⟩ := ihfirst s noted
    unfold Makes at hfirst ⊢
    rw [start_mapError] at hfirst
    rw [start_bind, hnew, start_mapError, start_bind]
    generalize b.start s = r at hfirst
    obtain ⟨stop | x, s₁⟩ := r
    · exact ⟨new, rfl, hfirst⟩
    · obtain ⟨more, hmore, hrest⟩ := ihrest x s₁ (noted ++ new)
      refine ⟨new ++ more, by rw [← List.append_assoc]; exact hmore, ?_⟩
      rw [List.flatMap_append]
      exact hfirst.append hrest

variable (hload : ∀ r, Makes (load r.name) r.state (answers r)) (program : Term)
  (s : Progress Modules)

include hload

/-- Elaboration makes the requests that are noted, and those that are made to answer them. -/
theorem makes_checkProgram :
    Makes (Run.mapError .ofRefusal (checkProgram ⟨fuel, load⟩ session.checkerEnv program)) s
      ((requests fuel session load program s).flatMap answers) := by
  have hsteps : Check.SameSteps ⟨fuel, noting load⟩ ⟨fuel, load⟩
      (checkProgram ⟨fuel, noting load⟩ session.checkerEnv program)
      (checkProgram ⟨fuel, load⟩ session.checkerEnv program) := checkProgram_sameSteps (by rfl) _ _
  obtain ⟨new, hnew, hmakes⟩ := course_of_sameSteps hload hsteps s []
  rw [requests, hnew]
  exact hmakes

theorem makes_run :
    Makes (run fuel session load program) s
      ((requests fuel session load program s).flatMap answers) := by
  rw [run_eq]
  exact (makes_checkProgram hload program s).bind_quiet fun elaborated ↦
    (quiet_normalized elaborated).bind fun _ ↦ (quiet_evaluateIn elaborated).bind fun _ ↦ .pure _

end Programs

/-! ### Requests of an execution -/

section Executions

variable {fuel : Nat} {session : Session}

/-- What loading does with a request. -/
theorem start_request (depth : Nat) (r : Request) :
    (loadModule fuel session (depth + 1) r.name).start r.state =
      match r.recorded.host.cached? r.name, r.recorded.host.cycle? r.name,
          session.source.read? r.name with
      | some result, _, _ => (.ok result, r.recorded.record (.foundInCache r.name))
      | none, some cycle, _ => (.error (.error (.importCycle r.name cycle)), r.recorded)
      | none, none, none =>
        (.error (.error (.moduleNotFound r.name)), r.recorded.record (.loading r.name))
      | none, none, some program =>
        match (run fuel session (loadModule fuel session depth) program).start r.entered with
        | (.ok (_, result), s) => (.ok result, { s with host := s.host.leave.keep r.name result })
        | (.error stop, s) => (.error stop, { s with host := s.host.leave }) :=
  Upkeep.start_loadModule depth r.name r.state

/-- A request is answered by making the requests that are counted for it. -/
theorem makes_loadModule (depth : Nat) (r : Request) :
    Makes (loadModule fuel session depth r.name) r.state (requestsFor fuel session depth r) := by
  induction depth generalizing r with
  | zero => exact .quiet rfl rfl nofun
  | succ depth ih =>
    unfold Makes
    rw [start_request, requestsFor]
    have hreads := r.reads_iff_recorded
    cases hcached : r.recorded.host.cached? r.name with
    | some result =>
      rw [if_neg (by simp [hreads, hcached])]
      rw [Request.cached?_recorded] at hcached
      exact .found hcached
    | none =>
      cases hcycle : r.recorded.host.cycle? r.name with
      | some cycle =>
        rw [if_neg (by simp [hreads, hcycle])]
        rw [Request.cached?_recorded] at hcached
        exact .cyclic hcached hcycle
      | none =>
        replace hreads := hreads.mpr ⟨hcached, hcycle⟩
        rw [if_pos hreads]
        cases session.source.read? r.name with
        | none => exact .missing hreads
        | some program =>
          have hinner : Makes (run fuel session (loadModule fuel session depth) program) r.entered
              ((requests fuel session (loadModule fuel session depth) program r.entered).flatMap
                (requestsFor fuel session depth)) := makes_run ih program r.entered
          unfold Makes at hinner
          dsimp only
          generalize (run fuel session (loadModule fuel session depth) program).start
            r.entered = result at hinner
          obtain ⟨stop | ⟨_, result⟩, s₁⟩ := result
          · exact .stops hreads hinner
          · exact .loads hreads hinner result

/-- The course of an execution. -/
theorem course_ran (fuel : Nat) (program : Term) (s : Progress Session) :
    Course ⟨s.host.modules, s.journal⟩ (allRequests fuel program s)
      (ending (ran fuel program s).1) (ran fuel program s).2 :=
  makes_run (makes_loadModule s.host.loadDepth) program ⟨s.host.modules, s.journal⟩

end Executions

/-! ### What is kept in the course of an execution -/

section Tidy

variable {r : Request}

theorem tidy_recorded (hs : r.state.host.Tidy) : r.recorded.host.Tidy :=
  Upkeep.sound_request (U := anyResults 0 .empty) hs

theorem grows_recorded (hs : r.state.host.Tidy) : r.state.host.Grows r.recorded.host :=
  Upkeep.grows_request (U := anyResults 0 .empty) hs

theorem tidy_entered (hs : r.state.host.Tidy) (hreads : r.reads = true) :
    r.entered.host.Tidy := by
  obtain ⟨hcached, hloading⟩ := Request.reads_iff.mp hreads
  refine Upkeep.sound_enter (U := anyResults 0 .empty) (tidy_recorded hs) ?_ ?_
  · rwa [Request.cached?_recorded]
  · rwa [Request.loading_recorded]

/-- The program of a requested module has run. -/
theorem ran_entered (hs : r.state.host.Tidy) (hreads : r.reads = true) {s : Modules}
    (hkeeps : r.entered.host.Tidy → s.Tidy ∧ r.entered.host.Grows s) :
    (anyResults 0 .empty).Ran r.name r.recorded.host s := by
  obtain ⟨hcached, hloading⟩ := Request.reads_iff.mp hreads
  refine ⟨tidy_recorded hs, ?_, ?_, hkeeps (tidy_entered hs hreads)⟩
  · rwa [Request.cached?_recorded]
  · rwa [Request.loading_recorded]

/-- Loaded modules keep their results and imports, and those that wait keep their imports. -/
theorem Course.keeps {s s₁ : Progress Modules} {t : List Request} {o : Outcome SessionError Unit}
    (h : Course s t o s₁) (hs : s.host.Tidy) : s₁.host.Tidy ∧ s.host.Grows s₁.host := by
  induction h with
  | quiet host =>
    rw [host]
    exact ⟨hs, .refl _⟩
  | append first rest ihfirst ihrest =>
    obtain ⟨hs₁, hgrows⟩ := ihfirst hs
    obtain ⟨hs₂, hgrows₁⟩ := ihrest hs₁
    exact ⟨hs₂, hgrows.trans hgrows₁⟩
  | found | cyclic | missing => exact ⟨tidy_recorded hs, grows_recorded hs⟩
  | stops reads inner ih =>
    have hran := ran_entered hs reads ih
    exact ⟨hran.sound_leave, (grows_recorded hs).trans hran.grows_leave⟩
  | loads reads inner result ih =>
    have hran := ran_entered hs reads ih
    exact ⟨hran.sound_keep trivial, (grows_recorded hs).trans (hran.grows_keep result)⟩

theorem keeps_loadModule (fuel : Nat) (session : Session) (depth : Nat) (name : String)
    {s : Progress Modules} (hs : s.host.Tidy) :
    let later := ((loadModule fuel session depth name).start s).2.host
    later.Tidy ∧ s.host.Grows later :=
  have hcourse : Makes (loadModule fuel session depth name) s
      (requestsFor fuel session depth ⟨name, s⟩) := makes_loadModule depth ⟨name, s⟩
  Course.keeps hcourse hs

end Tidy

end Session

end RankedTT
