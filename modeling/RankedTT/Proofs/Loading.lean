import RankedTT.Proofs.Mirror
import RankedTT.Proofs.ModuleState

/-!
Loading modules. While a module is loaded, the modules that are loaded already keep their results
and their imports, and the modules that wait for it keep their imports. The elaboration of a program
depends on its imports by their answers only: it could be repeated without loading anything, with
every request answered by what is in the cache at the end. What is known of loaded modules and of
the causes of failure is a parameter; it is kept by loading if it holds of every module that is
executed in this way.
-/

set_option autoImplicit false
set_option relaxedAutoImplicit false

namespace RankedTT

open Run

/-! ### States between two steps -/

namespace Run

variable {σ ε ε' α β : Type}

/-- The property of states is kept, however the computation ends. -/
def Keeps (I : σ → Prop) (a : Run σ ε α) : Prop := ∀ s, I s → I (a.start s).2

namespace Keeps

variable {I : σ → Prop}

theorem bind {a : Run σ ε α} {f : α → Run σ ε β} (ha : Keeps I a) (hf : ∀ x, Keeps I (f x)) :
    Keeps I (a >>= f) := by
  intro s hs
  have hmid := ha s hs
  rw [start_bind]
  generalize a.start s = r at hmid
  obtain ⟨⟨stop⟩ | x, s₁⟩ := r
  · exact hmid
  · exact hf x s₁ hmid

theorem pure (x : α) : Keeps I (Pure.pure x : Run σ ε α) := fun _ hs ↦ hs

theorem mapError {f : ε → ε'} {a : Run σ ε α} (ha : Keeps I a) : Keeps I (Run.mapError f a) :=
  fun s hs ↦ ha s hs

theorem modifyGet {f : σ → α × σ} (h : ∀ s, I s → I (f s).2) :
    Keeps I (MonadState.modifyGet f : Run σ ε α) :=
  fun s hs ↦ h s hs

theorem ofOutcome (o : Outcome ε α) : Keeps I (Run.ofOutcome o : Run σ ε α) := fun _ hs ↦ hs

theorem ofOption {cause : ε} {o : Option α} : Keeps I (Run.ofOption cause o : Run σ ε α) := by
  cases o <;> exact fun _ hs ↦ hs

theorem ofExcept {f : ε' → ε} {e : Except ε' α} : Keeps I (Run.ofExcept f e : Run σ ε α) := by
  cases e <;> exact fun _ hs ↦ hs

theorem mapM {f : α → Run σ ε β} (hf : ∀ x, Keeps I (f x)) (xs : List α) :
    Keeps I (xs.mapM f) := by
  induction xs with
  | nil => exact pure _
  | cons x xs ih =>
    rw [List.mapM_cons]
    exact (hf x).bind fun _ ↦ ih.bind fun _ ↦ pure _

theorem returns {a : Run σ ε α} (ha : Keeps I a) {s s₁ : σ} {x : α} (h : a.Returns s x s₁)
    (hs : I s) : I s₁ := by
  have hend := ha s hs
  rw [h] at hend
  exact hend

end Keeps

end Run

/-- Normalizing a judgement does nothing to the state but to take stamps. -/
theorem Check.normalized_keeps_of_stamp {σ κ : Type} {I : Progress σ → Prop}
    (hstamp : ∀ s t, I s → I (s.stamp t).2) (fuel : Nat) (ctx : Ctx)
    (judgement : Classified Core) :
    Keeps I (Check.normalized fuel ctx judgement : Check σ κ (Classified Core)) := by
  have hnormalize (t : Core) : Keeps I (Check.normalize fuel ctx t : Check σ κ Core) :=
    .bind (.mapError (.ofOutcome _)) fun _ ↦ .modifyGet fun s hs ↦ hstamp s _ hs
  exact (hnormalize _).bind fun _ ↦ (hnormalize _).bind fun _ ↦ .pure _

theorem Check.normalized_keeps {σ κ : Type} {I : σ → Prop} (fuel : Nat) (ctx : Ctx)
    (judgement : Classified Core) :
    Keeps (fun s ↦ I s.host)
      (Check.normalized fuel ctx judgement : Check σ κ (Classified Core)) :=
  normalized_keeps_of_stamp (fun _ _ hs ↦ hs) fuel ctx judgement

theorem Check.normalized_fails {σ κ : Type} {fuel : Nat} {ctx : Ctx} {judgement : Classified Core}
    {s : Progress σ} {cause : Refusal κ}
    (h : (Check.normalized fuel ctx judgement : Check σ κ (Classified Core)).Fails s cause) :
    ∃ cause', cause = .rejected cause' := by
  have hnormalize {t : Core} {s : Progress σ}
      (h : (Check.normalize fuel ctx t : Check σ κ Core).Fails s cause) :
      ∃ cause', cause = .rejected cause' := by
    simp only [Check.normalize, Check.ofNormalizer, fails_bind_iff, fails_mapError_iff, Check.stamp,
      not_fails_modifyGet, and_false, exists_false, or_false] at h
    obtain ⟨cause', -, rfl⟩ := h
    exact ⟨_, rfl⟩
  simp only [Check.normalized, fails_bind_iff, not_fails_pure, and_false, exists_false,
    or_false] at h
  rcases h with h | ⟨_, _, -, h⟩
  · exact hnormalize h
  · exact hnormalize h

namespace Load

variable {α : Type}

theorem ofEval_keeps {I : Modules → Prop} (action : Eval α) :
    Keeps (fun s ↦ I s.host) (ofEval action) :=
  fun _ hs ↦ hs

theorem start_ofEval (action : Eval α) (s : Progress Modules) :
    (ofEval action).start s = ((action.start s.journal).1.mapError (Stop.map .runtime),
      { s with journal := (action.start s.journal).2 }) := rfl

theorem returns_of_ofEval {action : Eval α} {s s₁ : Progress Modules} {x : α}
    (h : (ofEval action).Returns s x s₁) : action.Returns s.journal x s₁.journal := by
  unfold Returns at h ⊢
  rw [start_ofEval] at h
  generalize action.start s.journal = r at h
  obtain ⟨⟨stop⟩ | y, journal⟩ := r
  · simp at h
  · obtain ⟨hy, rfl⟩ := Prod.mk.inj h
    injection hy with hy
    rw [hy]

theorem fails_of_ofEval {action : Eval α} {s : Progress Modules} {cause : SessionError}
    (h : (ofEval action).Fails s cause) :
    ∃ cause', action.Fails s.journal cause' ∧ .runtime cause' = cause := by
  unfold Fails outcome at h ⊢
  rw [start_ofEval] at h
  generalize action.start s.journal = r at h
  obtain ⟨⟨⟨cause'⟩ | _⟩ | y, journal⟩ := r <;> simp_all [Stop.map]

end Load

namespace Modules

/-- From one state of loading to a later one of the same depth: loaded modules keep their results
and their imports, and so do the imports of the modules that wait; the module that is being loaded
may have requested more. -/
structure Grows (s s₁ : Modules) : Prop where
  loading : s₁.loading = s.loading
  cached : ∀ {x v}, s.cached? x = some v → s₁.cached? x = some v
  imports : ∀ {x}, (s.cached? x).isSome ∨ x ∈ s.loading.dropLast →
    s₁.imports.imports? x = s.imports.imports? x
  requested : ∀ {m}, s.loading.getLast? = some m → s.importsOf m ⊆ s₁.importsOf m

theorem Grows.refl (s : Modules) : s.Grows s :=
  ⟨rfl, fun h ↦ h, fun _ ↦ rfl, fun _ _ h ↦ h⟩

theorem Grows.trans {s s₁ s₂ : Modules} (h : s.Grows s₁) (h₁ : s₁.Grows s₂) : s.Grows s₂ where
  loading := h₁.loading.trans h.loading
  cached hx := h₁.cached (h.cached hx)
  imports {x} hx := by
    refine (h₁.imports (hx.imp (fun hx ↦ ?_) fun hx ↦ ?_)).trans (h.imports hx)
    · obtain ⟨v, hv⟩ := Option.isSome_iff_exists.mp hx
      rw [h.cached hv]
      rfl
    · rw [h.loading]
      exact hx
  requested hm := fun i hi ↦ h₁.requested (h.loading ▸ hm) (h.requested hm hi)

/-- No module is being loaded twice, what is being loaded is not loaded, and what is known of loaded
modules holds. -/
structure Sound (Ok : Modules → String → Classified Value → Prop) (s : Modules) : Prop where
  nodup : s.loading.Nodup
  unloaded : ∀ {x}, x ∈ s.loading → s.cached? x = none
  ok : ∀ {x v}, s.cached? x = some v → Ok s x v

/-- With nothing loaded, on behalf of an importer. -/
def alone (importer : Option String) : Modules := ⟨.empty, .empty, importer.toList⟩

/-- The requests made for the importer, or all if there is none, are answered as in the cache. -/
def Answers (importer : Option String) (s : Modules) (table : String → Option (Classified Value)) :
    Prop :=
  ∀ i v, (∀ m, importer = some m → i ∈ s.importsOf m) → s.cached? i = some v → table i = some v

theorem Sound.not_mem_dropLast {Ok : Modules → String → Classified Value → Prop} {s : Modules}
    (h : s.Sound Ok) {m : String} (hm : s.loading.getLast? = some m) : m ∉ s.loading.dropLast := by
  obtain ⟨outer, houter⟩ := List.getLast?_eq_some_iff.mp hm
  have hnodup := h.nodup
  rw [houter, List.nodup_append] at hnodup
  rw [houter, List.dropLast_concat]
  intro hmem
  exact hnodup.2.2 m hmem m (List.mem_singleton_self m) rfl

end Modules

namespace Session

/-- Answer a request from a table, without loading anything. -/
def answer (table : String → Option (Classified Value)) (name : String) :
    Load (Classified Value) := do
  Load.changeModules (Modules.request name)
  Run.ofOption (.moduleNotFound name) (table name)

/-- The elaboration of a program can be repeated with the answers in the cache: it is the same but
for stamps, and makes the same requests. -/
def Elaborates (fuel : Nat) (session : Session) (importer : Option String) (program : Term)
    (after : Modules) (elaborated : Classified Core) : Prop :=
  ∀ table, after.Answers importer table → ∀ journal, ∃ found s,
    (checkProgram ⟨fuel, answer table⟩ session.checkerEnv program).Returns
      ⟨Modules.alone importer, journal⟩ found s ∧
    alike (fun _ ↦ True) elaborated found ∧
    ∀ m, importer = some m → s.host.imports.imports? m = after.imports.imports? m

/-- A program was executed: what it was elaborated to, normalized to and evaluated to. -/
structure Executed (fuel : Nat) (session : Session) (importer : Option String) (program : Term)
    (after : Modules) (elaborated normalized : Classified Core) (value : Value) : Prop where
  elaborates : session.Elaborates fuel importer program after elaborated
  requests : ∀ m, importer = some m → ∀ i ∈ after.importsOf m, (after.cached? i).isSome
  normalizes : ∃ s s₁, (Check.normalized fuel ⟨session.checkerEnv⟩ elaborated :
    Check Modules SessionError (Classified Core)).Returns s normalized s₁
  evaluates : elaborated.rank = 0 → ∃ journal journal₁,
    (evaluate fuel session.runtimeEnv elaborated).Returns journal value journal₁
  absent : elaborated.rank ≠ 0 → value = .absent

/-- The value of an elaborated program, if it has one. -/
def evaluateIn (fuel : Nat) (session : Session) (elaborated : Classified Core) : Load Value :=
  if elaborated.rank = 0 then Load.ofEval (evaluate fuel session.runtimeEnv elaborated)
  else pure .absent

theorem evaluateIn_keeps {fuel : Nat} {session : Session} {I : Modules → Prop}
    (elaborated : Classified Core) :
    Keeps (fun s ↦ I s.host) (evaluateIn fuel session elaborated) := by
  unfold evaluateIn
  split
  · exact Load.ofEval_keeps _
  · exact .pure _

theorem run_eq {fuel : Nat} {session : Session} (load : String → Load (Classified Value))
    (program : Term) :
    run fuel session load program = do
      let elaborated ←
        Run.mapError .ofRefusal (checkProgram ⟨fuel, load⟩ session.checkerEnv program)
      let normalized ←
        Run.mapError .ofRefusal (Check.normalized fuel ⟨session.checkerEnv⟩ elaborated)
      let value ← evaluateIn fuel session elaborated
      return (normalized, normalized.withTerm value) := by
  unfold run evaluateIn
  refine bind_congr fun elaborated ↦ bind_congr fun normalized ↦ ?_
  split <;> rfl

/-- What every request keeps, a run keeps, however it ends. -/
theorem run_keeps {fuel : Nat} {session : Session} {load : String → Load (Classified Value)}
    {I : Modules → Prop} (hload : ∀ name s, I s.host → I ((load name).start s).2.host)
    (program : Term) : Keeps (fun s ↦ I s.host) (run fuel session load program) := by
  rw [run_eq]
  exact .bind (.mapError (checkProgram_keeps hload _ program)) fun _ ↦
    .bind (.mapError (Check.normalized_keeps _ _ _)) fun _ ↦
      .bind (evaluateIn_keeps _) fun _ ↦ .pure _

/-- What a run does: it elaborates, normalizes and evaluates. -/
theorem returns_run_iff {fuel : Nat} {session : Session} {load : String → Load (Classified Value)}
    {program : Term} {s s₁ : Progress Modules} {normalized : Classified Core}
    {result : Classified Value} :
    (run fuel session load program).Returns s (normalized, result) s₁ ↔
      ∃ elaborated s₂ s₃ value,
        (checkProgram ⟨fuel, load⟩ session.checkerEnv program).Returns s elaborated s₂ ∧
        (Check.normalized fuel ⟨session.checkerEnv⟩ elaborated :
          Check Modules SessionError (Classified Core)).Returns s₂ normalized s₃ ∧
        (evaluateIn fuel session elaborated).Returns s₃ value s₁ ∧
        result = normalized.withTerm value := by
  rw [run_eq]
  simp only [returns_bind_iff, returns_mapError_iff, returns_pure_iff]
  constructor
  · rintro ⟨elaborated, s₂, helaborated, _, s₃, hnormalized, value, _, hvalue, hresult, rfl⟩
    obtain ⟨rfl, rfl⟩ := Prod.mk.inj hresult
    exact ⟨elaborated, s₂, s₃, value, helaborated, hnormalized, hvalue, rfl⟩
  · rintro ⟨elaborated, s₂, s₃, value, helaborated, hnormalized, hvalue, rfl⟩
    exact ⟨elaborated, s₂, helaborated, normalized, s₃, hnormalized, value, s₁, hvalue, rfl, rfl⟩

/-- A program of the base universe is evaluated, and another one has the absent value. -/
theorem returns_of_evaluateIn {fuel : Nat} {session : Session} {elaborated : Classified Core}
    {s s₁ : Progress Modules} {value : Value}
    (h : (evaluateIn fuel session elaborated).Returns s value s₁) :
    (elaborated.rank = 0 → (evaluate fuel session.runtimeEnv elaborated).Returns s.journal value
      s₁.journal) ∧ (elaborated.rank ≠ 0 → value = .absent) := by
  refine ⟨fun hrank ↦ ?_, fun hrank ↦ ?_⟩
  · rw [evaluateIn, if_pos hrank] at h
    exact Load.returns_of_ofEval h
  · rw [evaluateIn, if_neg hrank] at h
    exact (returns_pure_iff.mp h).1.symm

/-- What is known of loaded modules and of the causes of failure, for programs with the property
`Fine`. -/
structure Upkeep (fuel : Nat) (session : Session) where
  Ok : Modules → String → Classified Value → Prop
  Blames : SessionError → Prop
  Fine : Term → Prop
  source : ∀ {m program}, session.source.read? m = some program → Fine program
  stable : ∀ {s s₁ : Modules} {m v}, s.cached? m = some v →
    (∀ {x v}, s.cached? x = some v → s₁.cached? x = some v) →
    s₁.imports.imports? m = s.imports.imports? m → Ok s m v → Ok s₁ m v
  loads : ∀ {m program s elaborated normalized value}, session.source.read? m = some program →
    s.Sound Ok → s.loading.getLast? = some m →
    session.Executed fuel (some m) program s elaborated normalized value →
    Ok (s.leave.keep m (normalized.withTerm value)) m (normalized.withTerm value)
  rejected : ∀ cause, Blames (.type cause)
  cyclic : ∀ m cycle, Blames (.importCycle m cycle)
  missing : ∀ m, Blames (.moduleNotFound m)
  runtime : ∀ {importer program s elaborated journal cause}, Fine program → s.Sound Ok →
    session.Elaborates fuel importer program s elaborated → elaborated.rank = 0 →
    (evaluate fuel session.runtimeEnv elaborated).Fails journal cause → Blames (.runtime cause)

namespace Upkeep

variable {fuel : Nat} {session : Session} (U : Upkeep fuel session)

section Request

variable {U} {s : Modules} {name : String}

/-- What is known of loaded modules depends on their imports and on the results of others only. -/
theorem ok_of_imports_eq (s₁ : Modules) (h : s.Sound U.Ok)
    (hcached : ∀ {x}, s₁.cached? x = s.cached? x)
    (himports : ∀ {x}, (s.cached? x).isSome → s₁.imports.imports? x = s.imports.imports? x)
    {x : String} {v : Classified Value} (hv : s₁.cached? x = some v) : U.Ok s₁ x v := by
  rw [hcached] at hv
  refine U.stable hv (fun hx ↦ ?_) (himports (by rw [hv]; rfl)) (h.ok hv)
  rw [hcached]
  exact hx

theorem imports?_request (h : s.Sound U.Ok) {x : String}
    (hx : (s.cached? x).isSome ∨ x ∈ s.loading.dropLast) :
    (s.request name).imports.imports? x = s.imports.imports? x := by
  refine Modules.imports?_request_of_ne fun hlast ↦ ?_
  rcases hx with hx | hx
  · rw [h.unloaded (List.mem_of_getLast? hlast)] at hx
    cases hx
  · exact h.not_mem_dropLast hlast hx

theorem sound_request (h : s.Sound U.Ok) : (s.request name).Sound U.Ok where
  nodup := by
    rw [Modules.loading_request]
    exact h.nodup
  unloaded hx := by
    rw [Modules.loading_request] at hx
    rw [Modules.cached?_request]
    exact h.unloaded hx
  ok := ok_of_imports_eq _ h Modules.cached?_request fun hx ↦ imports?_request h (.inl hx)

theorem grows_request (h : s.Sound U.Ok) : s.Grows (s.request name) where
  loading := Modules.loading_request
  cached hx := by rwa [Modules.cached?_request]
  imports hx := imports?_request h hx
  requested {m} hm i hi := by
    rw [Modules.importsOf, Modules.imports?_request_of_getLast? hm, ImportGraph.mem_imports_add]
    exact .inl hi

end Request

/-- Loading a module in the state `s` came to an end. What is known is kept, however it ends. A
module that was loaded is in the cache, and the one that requested it has no other new import. -/
structure Loaded (name : String) (s : Modules)
    (r : Outcome SessionError (Classified Value) × Progress Modules) : Prop where
  sound : r.2.host.Sound U.Ok
  grows : s.Grows r.2.host
  returns : ∀ v, r.1 = .ok v → r.2.host.cached? name = some v ∧
    ∀ m, s.loading.getLast? = some m →
      r.2.host.imports.imports? m = (s.request name).imports.imports? m
  fails : ∀ cause, r.1 = .error (.error cause) → U.Blames cause

def Loads (load : String → Load (Classified Value)) : Prop :=
  ∀ name (s : Progress Modules), s.host.Sound U.Ok → U.Loaded name s.host ((load name).start s)

/-! ### Elaboration with answers from a table -/

/-- What is known of the states after `start`. -/
def Invariant (start s : Modules) : Prop := s.Sound U.Ok ∧ start.Grows s

/-- Loading on the one side, answers from a table on the other. -/
def mirror (start : Modules) (table : String → Option (Classified Value)) :
    Mirror Modules Modules SessionError where
  hosts :=
    { states := fun s s' ↦ U.Invariant start s ∧ s'.loading = start.loading.getLast?.toList ∧
        ∀ m, start.loading.getLast? = some m →
          s'.imports.imports? m = s.imports.imports? m ∧
            ∀ i ∈ s.importsOf m, (s.cached? i).isSome
      settled := fun s ↦ U.Invariant start s → s.Answers start.loading.getLast? table }
  constants _ := True
  causes := U.Blames
  unconstrained _ _ _ := trivial

variable {U} {load : String → Load (Classified Value)}

theorem Invariant.trans {start s s₁ : Modules} (h : U.Invariant start s) (hsound : s₁.Sound U.Ok)
    (hgrows : s.Grows s₁) : U.Invariant start s₁ :=
  ⟨hsound, h.2.trans hgrows⟩

theorem Loads.keeps (hload : U.Loads load) (start : Modules) (name : String)
    (s : Progress Modules) (hs : U.Invariant start s.host) :
    U.Invariant start ((load name).start s).2.host :=
  hs.trans (hload name s hs.1).sound (hload name s hs.1).grows

theorem Loads.mirrored (hload : U.Loads load) (start : Modules)
    (table : String → Option (Classified Value)) :
    Host.Mirrored (U.mirror start table) ⟨fuel, load⟩ ⟨fuel, answer table⟩ := by
  refine ⟨rfl, fun name s hsettled ↦ ⟨fun hs ↦ ?_, fun s' hstates ↦ ?_⟩⟩
  · -- the answers at the end include those given before
    have hanswers := hsettled (hload.keeps start name s hs)
    have hgrows := (hload name s hs.1).grows
    intro i v hi hv
    exact hanswers i v (fun m hm ↦ hgrows.requested (hs.2.loading ▸ hm) (hi m hm))
      (hgrows.cached hv)
  · obtain ⟨hs, hloading, himports⟩ := hstates
    have hend := hload.keeps start name s hs
    have hloaded := hload name s hs.1
    have hanswers : ((load name).start s).2.host.Answers start.loading.getLast? table :=
      hsettled hend
    change EndsWith _ _ _ _ _ ((load name).start s)
    generalize (load name).start s = r at hend hloaded hanswers
    obtain ⟨⟨stop⟩ | v, s₁⟩ := r
    · rintro cause rfl
      exact hloaded.fails cause rfl
    · obtain ⟨hcached, hrequest⟩ := hloaded.returns v rfl
      have hnew : ∀ m, start.loading.getLast? = some m →
          s₁.host.imports.imports? m = (s.host.imports.add m name).imports? m :=
        fun m hm ↦ by
          have hlast : s.host.loading.getLast? = some m := hs.2.loading ▸ hm
          rw [hrequest m hlast, Modules.imports?_request_of_getLast? hlast]
      have htable : table name = some v := by
        refine hanswers name v (fun m hm ↦ ?_) hcached
        rw [Modules.importsOf, hnew m hm, ImportGraph.mem_imports_add]
        exact .inr rfl
      refine ⟨v, { s' with host := s'.host.request name }, ?_, ⟨hend, ?_, fun m hm ↦ ⟨?_, ?_⟩⟩, ?_⟩
      · change (answer table name).Returns s' v { s' with host := s'.host.request name }
        unfold answer
        rw [htable]
        rfl
      · exact Modules.loading_request.trans hloading
      · have hlast : s'.host.loading.getLast? = some m := by rw [hloading, hm]; rfl
        rw [hnew m hm, Modules.imports?_request_of_getLast? hlast]
        exact ImportGraph.imports?_add_congr name (himports m hm).1
      · intro i hi
        rw [Modules.importsOf, hnew m hm, ImportGraph.mem_imports_add] at hi
        rcases hi with hi | rfl
        · obtain ⟨w, hw⟩ := Option.isSome_iff_exists.mp ((himports m hm).2 i hi)
          rw [hloaded.grows.cached hw]
          rfl
        · rw [hcached]
          rfl
      · exact Likeness.alike_refl (fun _ ↦ trivial) v

section Run

variable (hload : U.Loads load) {s : Progress Modules} (hsound : s.host.Sound U.Ok)
  (hnew : ∀ m, s.host.loading.getLast? = some m → s.host.imports.imports? m = none)

include hload hsound

theorem Loads.checkProgram_keeps (program : Term) :
    U.Invariant s.host
      ((checkProgram ⟨fuel, load⟩ session.checkerEnv program).start s).2.host :=
  RankedTT.checkProgram_keeps (hload.keeps s.host) _ program s ⟨hsound, .refl s.host⟩

theorem Loads.run_keeps (program : Term) :
    U.Invariant s.host ((run fuel session load program).start s).2.host :=
  Session.run_keeps (hload.keeps s.host) program s ⟨hsound, .refl s.host⟩

include hnew

/-- The elaboration and one that takes its answers from a table. -/
theorem Loads.endsWith (program : Term) (table : String → Option (Classified Value))
    (htable : ((checkProgram ⟨fuel, load⟩ session.checkerEnv program).start s).2.host.Answers
      s.host.loading.getLast? table) (journal : Journal) :
    EndsWith (U.mirror s.host table).progress (Refusal.Due U.Blames) (alike fun _ ↦ True)
      (checkProgram ⟨fuel, answer table⟩ session.checkerEnv program)
      ⟨Modules.alone s.host.loading.getLast?, journal⟩
      ((checkProgram ⟨fuel, load⟩ session.checkerEnv program).start s) := by
  have hhost : Host.Mirrored (U.mirror s.host table) ⟨fuel, load⟩ ⟨fuel, answer table⟩ :=
    hload.mirrored s.host table
  have hmirrors := checkProgram_mirrors hhost.fuel
    (Likeness.alike_refl (S := fun _ ↦ True) (fun _ ↦ trivial) session.checkerEnv)
    (t := program) fun m _ ↦ hhost.known (fun _ ↦ trivial) m
  refine (hmirrors s fun _ ↦ htable).2 _ ⟨⟨hsound, .refl s.host⟩, rfl, fun m hm ↦ ?_⟩
  rw [Modules.importsOf, hnew m hm]
  exact ⟨rfl, by simp⟩

theorem Loads.elaborates {program : Term} {elaborated : Classified Core} {s₁ : Progress Modules}
    (h : (checkProgram ⟨fuel, load⟩ session.checkerEnv program).Returns s elaborated s₁) :
    session.Elaborates fuel s.host.loading.getLast? program s₁.host elaborated ∧
      ∀ m, s.host.loading.getLast? = some m →
        ∀ i ∈ s₁.host.importsOf m, (s₁.host.cached? i).isSome := by
  have hends := hload.endsWith hsound hnew program
  rw [h] at hends
  constructor
  · intro table htable journal
    obtain ⟨found, s', hfound, ⟨-, -, himports⟩, halike⟩ := hends table htable journal
    exact ⟨found, s', hfound, halike, fun m hm ↦ (himports m hm).1⟩
  · obtain ⟨_, _, -, ⟨-, -, himports⟩, -⟩ := hends s₁.host.cached? (fun _ _ _ h ↦ h) default
    exact fun m hm ↦ (himports m hm).2

theorem Loads.checkProgram_fails {program : Term} {cause : Refusal SessionError}
    (h : (checkProgram ⟨fuel, load⟩ session.checkerEnv program).Fails s cause) :
    Refusal.Due U.Blames cause := by
  have hends := hload.endsWith hsound hnew program _ (fun _ _ _ h ↦ h) default
  unfold Fails outcome at h
  generalize (checkProgram ⟨fuel, load⟩ session.checkerEnv program).start s = r at h hends
  obtain ⟨_, s₁⟩ := r
  obtain rfl : _ = _ := h
  exact hends cause rfl

/-- A program that was run was executed, with answers that are in the cache. -/
theorem Loads.run_returns {program : Term} {normalized : Classified Core}
    {result : Classified Value} {s₁ : Progress Modules}
    (h : (run fuel session load program).Returns s (normalized, result) s₁) :
    ∃ elaborated value, result = normalized.withTerm value ∧
      session.Executed fuel s.host.loading.getLast? program s₁.host elaborated normalized
        value := by
  obtain ⟨elaborated, s₂, s₃, value, helaborated, hn, hvalue, rfl⟩ := returns_run_iff.mp h
  obtain ⟨helaborates, hrequests⟩ := hload.elaborates hsound hnew helaborated
  have hhost : s₁.host = s₂.host := by
    have h₃ := (Check.normalized_keeps (I := (· = s₂.host)) _ _ _).returns hn rfl
    exact (evaluateIn_keeps (I := (· = s₂.host)) elaborated).returns hvalue h₃
  obtain ⟨hevaluates, habsent⟩ := returns_of_evaluateIn hvalue
  refine ⟨elaborated, value, rfl, ?_⟩
  rw [hhost]
  exact ⟨helaborates, hrequests, ⟨s₂, s₃, hn⟩, fun hrank ↦ ⟨_, _, hevaluates hrank⟩, habsent⟩

theorem Loads.run_fails {program : Term} (hfine : U.Fine program) {cause : SessionError}
    (h : (run fuel session load program).Fails s cause) : U.Blames cause := by
  have hdue {refusal : Refusal SessionError} (h : refusal.Due U.Blames) :
      U.Blames (.ofRefusal refusal) := by
    cases refusal with
    | rejected cause => exact U.rejected cause
    | importFailed _ cause => exact h
  rw [run_eq] at h
  simp only [fails_bind_iff, returns_mapError_iff, fails_mapError_iff, not_fails_pure, and_false,
    exists_false, or_false] at h
  rcases h with ⟨refusal, h, rfl⟩ | ⟨elaborated, s₂, helaborated, h⟩
  · exact hdue (hload.checkProgram_fails hsound hnew h)
  · rcases h with ⟨refusal, h, rfl⟩ | ⟨n, s₃, hn, h⟩
    · obtain ⟨cause, rfl⟩ := Check.normalized_fails h
      exact U.rejected cause
    · by_cases hrank : elaborated.rank = 0
      · rw [evaluateIn, if_pos hrank] at h
        obtain ⟨cause, hcause, rfl⟩ := Load.fails_of_ofEval h
        refine U.runtime hfine ?_ (hload.elaborates hsound hnew helaborated).1 hrank hcause
        have hend := (hload.checkProgram_keeps hsound program).1
        rw [helaborated] at hend
        exact hend
      · rw [evaluateIn, if_neg hrank] at h
        exact absurd h not_fails_pure

end Run

/-! ### Loading a module -/

theorem start_leaving {α : Type} (action : Load α) (s : Progress Modules) :
    (loadModule.leaving action).start s =
      ((action.start s).1, { (action.start s).2 with host := (action.start s).2.host.leave }) := rfl

/-- What loading does with a module, in order: it records the request, and then finds the module in
the cache, or finds that it is being loaded already, or does not find it in the source, or runs
it. -/
theorem start_loadModule (depth : Nat) (name : String) (s : Progress Modules) :
    (loadModule fuel session (depth + 1) name).start s =
      let s := { s with host := s.host.request name }
      match s.host.cached? name, s.host.cycle? name, session.source.read? name with
      | some result, _, _ => (.ok result, s.record (.foundInCache name))
      | none, some cycle, _ => (.error (.error (.importCycle name cycle)), s)
      | none, none, none => (.error (.error (.moduleNotFound name)), s.record (.loading name))
      | none, none, some program =>
        let s := { s.record (.loading name) with host := s.host.enter name }
        match (run fuel session (loadModule fuel session depth) program).start s with
        | (.ok (_, result), s) => (.ok result, { s with host := s.host.leave.keep name result })
        | (.error stop, s) => (.error stop, { s with host := s.host.leave }) := by
  rw [loadModule]
  generalize hs : ({ s with host := s.host.request name } : Progress Modules) = s₁
  have hrequest : (Load.changeModules (Modules.request name)).start s = (.ok (), s₁) := by
    rw [← hs]
    rfl
  rw [start_bind, hrequest]
  dsimp only
  have hmodules : Load.modules.start s₁ = (.ok s₁.host, s₁) := rfl
  rw [start_bind, hmodules]
  dsimp only
  cases hcached : s₁.host.cached? name with
  | some result =>
    rw [show s₁.host.loaded.getUnlessStale? name = some result from hcached]
    rfl
  | none =>
    rw [show s₁.host.loaded.getUnlessStale? name = none from hcached]
    cases hcycle : s₁.host.cycle? name with
    | some cycle => rfl
    | none =>
      cases hread : session.source.read? name with
      | none => rfl
      | some program =>
        change (loadModule.leaving (run fuel session (loadModule fuel session depth) program) >>=
          fun x ↦ (do
            Load.changeModules (Modules.keep name x.2)
            pure x.2 : Load (Classified Value))).start
            { s₁.record (.loading name) with host := s₁.host.enter name } = _
        rw [start_bind, start_leaving]
        dsimp only
        generalize (run fuel session (loadModule fuel session depth) program).start _ = r
        obtain ⟨⟨stop⟩ | x, s₂⟩ := r
        · rfl
        · rfl

section Steps

variable {s s₁ : Modules} {name : String}

theorem sound_enter (h : s.Sound U.Ok) (hcached : s.cached? name = none)
    (hloading : name ∉ s.loading) : (s.enter name).Sound U.Ok where
  nodup := by
    refine List.nodup_append.mpr ⟨h.nodup, List.nodup_singleton name, fun x hx y hy ↦ ?_⟩
    rw [List.mem_singleton.mp hy]
    rintro rfl
    exact hloading hx
  unloaded hx := by
    rcases List.mem_append.mp hx with hx | hx
    · exact h.unloaded hx
    · rw [List.mem_singleton.mp hx]
      exact hcached
  ok hv := by
    refine ok_of_imports_eq (s.enter name) h rfl (fun hx ↦ ?_) hv
    refine Modules.imports?_enter_of_ne ?_
    rintro rfl
    rw [hcached] at hx
    cases hx

variable (U) in
/-- The module was entered in the state `s`, and its program has run up to the state `s₁`. -/
structure Ran (name : String) (s s₁ : Modules) : Prop where
  sound : s.Sound U.Ok
  uncached : s.cached? name = none
  unentered : name ∉ s.loading
  invariant : U.Invariant (s.enter name) s₁

namespace Ran

variable (h : U.Ran name s s₁)

include h

theorem loading_leave : s₁.leave.loading = s.loading := by
  change s₁.loading.dropLast = s.loading
  rw [h.invariant.2.loading]
  exact List.dropLast_concat

theorem cached?_leave_self : s₁.leave.cached? name = none := by
  have hmem : name ∈ s₁.loading := by
    rw [h.invariant.2.loading]
    exact List.mem_append_right _ (List.mem_singleton_self name)
  exact h.invariant.1.unloaded hmem

/-- The modules that wait for this one keep their imports. -/
theorem imports?_leave {x : String} (hx : (s.cached? x).isSome ∨ x ∈ s.loading) :
    s₁.leave.imports.imports? x = s.imports.imports? x := by
  have hne : x ≠ name := by
    rintro rfl
    rcases hx with hx | hx
    · rw [h.uncached] at hx
      cases hx
    · exact h.unentered hx
  have hgrows : s₁.imports.imports? x = (s.enter name).imports.imports? x := by
    refine h.invariant.2.imports (hx.imp_right fun hx ↦ ?_)
    change x ∈ (s.loading ++ [name]).dropLast
    rwa [List.dropLast_concat]
  exact hgrows.trans (Modules.imports?_enter_of_ne hne)

theorem sound_leave : s₁.leave.Sound U.Ok where
  nodup := by
    rw [h.loading_leave]
    exact h.sound.nodup
  unloaded {x} hx := by
    have hmem : x ∈ s₁.loading := List.dropLast_subset _ hx
    exact h.invariant.1.unloaded hmem
  ok hv := ok_of_imports_eq s₁.leave h.invariant.1 rfl (fun _ ↦ rfl) hv

theorem grows_leave : s.Grows s₁.leave where
  loading := h.loading_leave
  cached hx := h.invariant.2.cached hx
  imports hx := h.imports?_leave (hx.imp_right (List.dropLast_subset _ ·))
  requested hm i hi := by
    rw [Modules.importsOf, h.imports?_leave (.inr (List.mem_of_getLast? hm))]
    exact hi

theorem cached?_keep {result : Classified Value} {x : String} {v : Classified Value}
    (hv : s₁.leave.cached? x = some v) : (s₁.leave.keep name result).cached? x = some v := by
  have hne : x ≠ name := by
    rintro rfl
    rw [h.cached?_leave_self] at hv
    cases hv
  rw [Modules.cached?_keep_of_ne result hne]
  exact hv

theorem grows_keep (result : Classified Value) : s.Grows (s₁.leave.keep name result) where
  loading := h.loading_leave
  cached hx := h.cached?_keep (h.invariant.2.cached hx)
  imports hx := h.grows_leave.imports hx
  requested hm := h.grows_leave.requested hm

theorem sound_keep {result : Classified Value}
    (hok : U.Ok (s₁.leave.keep name result) name result) :
    (s₁.leave.keep name result).Sound U.Ok where
  nodup := h.sound_leave.nodup
  unloaded {x} hx := by
    have hne : x ≠ name := by
      intro hname
      have hmem : x ∈ s.loading := h.loading_leave ▸ hx
      exact h.unentered (hname ▸ hmem)
    rw [Modules.cached?_keep_of_ne result hne]
    exact h.sound_leave.unloaded hx
  ok {x v} hv := by
    by_cases hx : x = name
    · subst hx
      rw [Modules.cached?_keep_self] at hv
      exact Option.some.inj hv ▸ hok
    · rw [Modules.cached?_keep_of_ne result hx] at hv
      exact U.stable hv h.cached?_keep rfl (h.sound_leave.ok hv)

end Ran

end Steps

/-- A module that is neither loaded nor being loaded is run. -/
theorem Loads.loaded_run (hload : U.Loads load) {name : String} {program : Term}
    (hread : session.source.read? name = some program) {s : Modules} (hs : s.Sound U.Ok)
    (hcached : (s.request name).cached? name = none) (hloading : name ∉ (s.request name).loading)
    {s₁ : Progress Modules} (hs₁ : s₁.host = (s.request name).enter name) :
    U.Loaded name s (match (run fuel session load program).start s₁ with
      | (.ok (_, result), s) => (.ok result, { s with host := s.host.leave.keep name result })
      | (.error stop, s) => (.error stop, { s with host := s.host.leave })) := by
  have hentered : s₁.host.Sound U.Ok := hs₁ ▸ sound_enter (sound_request hs) hcached hloading
  have hlast : s₁.host.loading.getLast? = some name := by
    rw [hs₁]
    exact List.getLast?_concat
  have hnew : ∀ m, s₁.host.loading.getLast? = some m → s₁.host.imports.imports? m = none := by
    rintro m hm
    obtain rfl : name = m := Option.some.inj (hlast.symm.trans hm)
    rw [hs₁]
    exact ImportGraph.imports?_erase_self _ name
  have hkeeps := hload.run_keeps hentered program
  have hreturns := @Loads.run_returns _ _ _ _ hload s₁ hentered hnew program
  have hfails := @Loads.run_fails _ _ _ _ hload s₁ hentered hnew program (U.source hread)
  unfold Returns at hreturns
  unfold Fails outcome at hfails
  generalize (run fuel session load program).start s₁ = r at hkeeps hreturns hfails
  obtain ⟨outcome, s₂⟩ := r
  have hran : U.Ran name (s.request name) s₂.host :=
    ⟨sound_request hs, hcached, hloading, hs₁ ▸ hkeeps⟩
  rcases outcome with stop | ⟨normalized, result⟩
  · refine ⟨hran.sound_leave, (grows_request hs).trans hran.grows_leave, by rintro v ⟨⟩, ?_⟩
    rintro cause ⟨⟩
    exact hfails rfl
  · obtain ⟨elaborated, value, rfl, hexecuted⟩ := hreturns rfl
    rw [hlast] at hexecuted
    have hlast₂ : s₂.host.loading.getLast? = some name := by rwa [hkeeps.2.loading]
    refine ⟨hran.sound_keep ?_, (grows_request hs).trans (hran.grows_keep _), ?_,
      by rintro cause ⟨⟩⟩
    · exact U.loads hread hkeeps.1 hlast₂ hexecuted
    · rintro v ⟨⟩
      refine ⟨Modules.cached?_keep_self _, fun m hm ↦ hran.imports?_leave (.inr ?_)⟩
      rw [Modules.loading_request]
      exact List.mem_of_getLast? hm

/-- Loading keeps what is known: by induction on how deep imports may go. -/
theorem loads_loadModule (depth : Nat) : U.Loads (loadModule fuel session depth) := by
  induction depth with
  | zero =>
    intro name s hs
    exact ⟨hs, .refl s.host, by rintro v ⟨⟩, by rintro cause ⟨⟩⟩
  | succ depth ih =>
    intro name s hs
    rw [start_loadModule]
    have hsound : (s.host.request name).Sound U.Ok := sound_request hs
    have hgrows : s.host.Grows (s.host.request name) := grows_request hs
    dsimp only
    cases hcached : (s.host.request name).cached? name with
    | some result =>
      refine ⟨hsound, hgrows, ?_, by rintro cause ⟨⟩⟩
      rintro v ⟨⟩
      exact ⟨hcached, fun _ _ ↦ rfl⟩
    | none =>
      cases hcycle : (s.host.request name).cycle? name with
      | some cycle =>
        refine ⟨hsound, hgrows, by rintro v ⟨⟩, ?_⟩
        rintro cause ⟨⟩
        exact U.cyclic name cycle
      | none =>
        cases hread : session.source.read? name with
        | none =>
          refine ⟨hsound, hgrows, by rintro v ⟨⟩, ?_⟩
          rintro cause ⟨⟩
          exact U.missing name
        | some program =>
          exact ih.loaded_run hread hs hcached (Modules.cycle?_eq_none_iff.mp hcycle) rfl

end Upkeep

end Session

end RankedTT
