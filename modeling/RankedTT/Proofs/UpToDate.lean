import RankedTT.Proofs.Content
import RankedTT.Proofs.History
import Mathlib.Data.List.Induction

/-!
Loaded modules are up to date. After every history of a session, a loaded module has a program in
the source, its imports are those that this program requests, they are loaded too, and its result is
what the program evaluates to with the results of its imports as they are now, in the session that
loaded it. Results are compared by their content: function bodies and partially applied operations
get new identities whenever a program is executed.
-/

set_option autoImplicit false
set_option relaxedAutoImplicit false

namespace RankedTT

open Run

theorem Load.ofEval_returns {α : Type} {action : Eval α} {s : Progress Modules} {x : α}
    {journal : Journal} (h : action.Returns s.journal x journal) :
    (ofEval action).Returns s x { s with journal := journal } := by
  unfold Returns at h ⊢
  rw [start_ofEval, h]
  rfl

namespace Session

variable {fuel : Nat} {session : Session} {program : Term}

/-! ### Executing a program again -/

theorem evaluateIn_alike {elaborated found : Classified Core}
    (halike : alike (fun _ ↦ True) elaborated found) {value : Value}
    (hvalue : elaborated.rank = 0 → ∃ journal journal₁,
      (evaluate fuel session.runtimeEnv elaborated).Returns journal value journal₁)
    (habsent : elaborated.rank ≠ 0 → value = .absent) (s : Progress Modules) :
    ∃ value' s₁, (evaluateIn fuel session found).Returns s value' s₁ ∧
      value'.content = value.content := by
  obtain ⟨hrank, -, hterm⟩ := halike
  unfold evaluateIn
  rw [← hrank]
  by_cases hzero : elaborated.rank = 0
  · obtain ⟨journal, journal₁, hreturns⟩ := hvalue hzero
    rw [evaluate, if_pos hzero] at hreturns
    rw [if_pos hzero, evaluate, if_pos (hrank ▸ hzero)]
    have hfollows : FollowsContent (elaborated.term.eval fuel session.runtimeEnv)
        (found.term.eval fuel session.runtimeEnv) :=
      Core.eval_follows fuel rfl (Core.Alike.content_eq hterm)
    obtain ⟨value', journal', hreturns', -, hcontent⟩ :=
      hfollows.returns hreturns trivial s.journal trivial
    exact ⟨value', _, Load.ofEval_returns hreturns', hcontent.symm⟩
  · rw [if_neg hzero]
    exact ⟨.absent, s, returns_pure_iff.mpr ⟨rfl, rfl⟩, by rw [habsent hzero]⟩

/-- Nothing is compared but what is returned. -/
def anyModules : Mirror Modules Modules SessionError where
  hosts := ⟨fun _ _ ↦ True, fun _ ↦ True⟩
  constants _ := True
  causes _ := True
  unconstrained _ _ _ := trivial

/-- What an execution needs of its imports can be had from a table. -/
theorem Executed.replays {importer : Option String} {after : Modules}
    {elaborated normalized : Classified Core} {value : Value}
    (h : session.Executed fuel importer program after elaborated normalized value)
    {table : String → Option (Classified Value)} (htable : after.Answers importer table)
    (journal : Journal) :
    ∃ normalized' result s,
      (run fuel session (answer table) program).Returns ⟨Modules.alone importer, journal⟩
        (normalized', result) s ∧
      result.content = (normalized.withTerm value).content ∧
      ∀ m, importer = some m → s.host.imports.imports? m = after.imports.imports? m := by
  obtain ⟨found, s₁, hfound, halike, himports⟩ := h.elaborates table htable journal
  obtain ⟨s, _, hnormalized⟩ := h.normalizes
  have hctx := Likeness.alike_refl (S := fun _ ↦ True) (fun _ ↦ trivial)
    (Ctx.mk session.checkerEnv)
  have hmirrors : anyModules.Mirrors
      (Check.normalized fuel ⟨session.checkerEnv⟩ elaborated : Check Modules SessionError _)
      (Check.normalized fuel ⟨session.checkerEnv⟩ found : Check Modules SessionError _) :=
    .normalized hctx halike
  obtain ⟨normalized', s₂, hnormalized', -, hrank, htype, -⟩ :=
    hmirrors.returns hnormalized trivial s₁ trivial
  obtain ⟨value', s₃, hvalue', hcontent⟩ := evaluateIn_alike halike h.evaluates h.absent s₂
  refine ⟨normalized', normalized'.withTerm value', s₃, ?_, ?_, fun m hm ↦ ?_⟩
  · exact returns_run_iff.mpr ⟨found, s₁, s₂, value', hfound, hnormalized', hvalue', rfl⟩
  · simp only [Classified.content, Classified.withTerm, hrank, htype.content_eq, hcontent]
  · have hhost₂ := (Check.normalized_keeps (I := (· = s₁.host)) _ _ _).returns hnormalized' rfl
    have hhost₃ := (evaluateIn_keeps (I := (· = s₁.host)) found).returns hvalue' hhost₂
    rw [hhost₃]
    exact himports m hm

/-! ### Results that can be reproduced -/

/-- The imports of a module are loaded, and with their results its program, executed in the session
`loader`, requests the same imports and has a result of the same content. -/
structure Reproduces (loader : Session) (program : Term) (s : Modules) (m : String)
    (result : Classified Value) : Prop where
  requests : ∀ i ∈ s.importsOf m, (s.cached? i).isSome
  replays : ∃ fuel, ∀ table, s.Answers (some m) table → ∀ journal, ∃ normalized again after,
    (run fuel loader (answer table) program).Returns ⟨Modules.alone (some m), journal⟩
      (normalized, again) after ∧
    again.content = result.content ∧ after.host.imports.imports? m = s.imports.imports? m

/-- It is enough that the module keeps its imports and they keep their results. -/
theorem Reproduces.of_imports_eq {loader : Session} {s s₁ : Modules} {m : String}
    {result : Classified Value} (h : Reproduces loader program s m result)
    (himports : s₁.imports.imports? m = s.imports.imports? m)
    (hcached : ∀ i ∈ s.importsOf m, ∀ v, s.cached? i = some v → s₁.cached? i = some v) :
    Reproduces loader program s₁ m result := by
  have himportsOf : s₁.importsOf m = s.importsOf m := by
    rw [Modules.importsOf, himports, Modules.importsOf]
  constructor
  · intro i hi
    rw [himportsOf] at hi
    obtain ⟨v, hv⟩ := Option.isSome_iff_exists.mp (h.requests i hi)
    rw [hcached i hi v hv]
    rfl
  · obtain ⟨fuel, hreplays⟩ := h.replays
    refine ⟨fuel, fun table htable journal ↦ ?_⟩
    rw [himports]
    refine hreplays table (fun i v hi hv ↦ ?_) journal
    refine htable i v ?_ (hcached i (hi m rfl) v hv)
    rintro _ ⟨⟩
    rw [himportsOf]
    exact hi m rfl

/-- A module that was not loaded before is loaded by the session itself. -/
def reproducible (fuel : Nat) (session : Session) : Upkeep fuel session where
  Ok s m v := session.modules.cached? m = none →
    ∃ program, session.source.read? m = some program ∧ Reproduces session program s m v
  Blames _ := True
  Fine _ := True
  source _ := trivial
  stable hv hcached himports h hnew := by
    obtain ⟨program, hread, hprogram⟩ := h hnew
    exact ⟨program, hread, hprogram.of_imports_eq himports fun _ _ _ hi ↦ hcached hi⟩
  loads {m program s elaborated normalized value} hread hs hlast hexecuted _ := by
    refine ⟨program, hread, ?_⟩
    have hreproduces : Reproduces session program s m (normalized.withTerm value) := by
      refine ⟨hexecuted.requests m rfl, fuel, fun table htable journal ↦ ?_⟩
      obtain ⟨normalized', again, after, hrun, hcontent, himports⟩ :=
        hexecuted.replays htable journal
      exact ⟨normalized', again, after, hrun, hcontent, himports m rfl⟩
    refine hreproduces.of_imports_eq rfl fun i _ v hv ↦ ?_
    -- the module itself was not loaded, so it is none of its imports
    have hne : i ≠ m := by
      rintro rfl
      rw [hs.unloaded (List.mem_of_getLast? hlast)] at hv
      cases hv
    rw [Modules.cached?_keep_of_ne _ hne]
    exact hv
  rejected _ := trivial
  cyclic _ _ := trivial
  missing _ := trivial
  runtime _ _ _ _ _ := trivial

/-! ### Histories -/

/-- The result of a loaded module belongs to the program that is in the source, and to the results
of its imports as they are now. -/
def UpToDate (loader now : Session) (m : String) : Prop :=
  ∃ program result, now.source.read? m = some program ∧ now.modules.cached? m = some result ∧
    Reproduces loader program now.modules m result

theorem isLoaded_iff {session : Session} {m : String} :
    session.isLoaded m = true ↔ ∃ v, session.modules.cached? m = some v := by
  rw [isLoaded, Bool.not_eq_true', Cache.isStale_eq_false_iff]
  rfl

/-- From one state of a session to the next: what stays loaded stays up to date, and what is loaded
anew is up to date with the session that loads it. -/
structure Advances (session later : Session) : Prop where
  idle : later.modules.loading = []
  kept : ∀ {loader m}, UpToDate loader session m → later.isLoaded m → UpToDate loader later m
  loaded : ∀ {m}, session.isLoaded m = false → later.isLoaded m → UpToDate session later m

theorem advances_withLoaded {s : Progress Session} (hidle : s.host.modules.loading = [])
    (fuel : Nat) (program : Term) : Advances s.host (withLoaded fuel program s) := by
  have hsound : s.host.modules.Sound (reproducible fuel s.host).Ok :=
    Upkeep.sound_of_idle _ hidle fun hv hnone ↦ by rw [hv] at hnone; cases hnone
  obtain ⟨hlater, hgrows⟩ := (reproducible fuel s.host).ran_keeps hsound program
  refine ⟨hgrows.loading.trans hidle, ?_, ?_⟩
  · rintro loader m ⟨program, result, hread, hcached, hreproduces⟩ -
    refine ⟨program, result, hread, hgrows.cached hcached, ?_⟩
    exact hreproduces.of_imports_eq (hgrows.imports (.inl (by rw [hcached]; rfl)))
      fun _ _ _ hi ↦ hgrows.cached hi
  · intro m hnew hloaded
    obtain ⟨result, hresult⟩ := isLoaded_iff.mp hloaded
    have hnone : s.host.modules.cached? m = none := by
      rw [Option.eq_none_iff_forall_ne_some]
      intro v hv
      rw [isLoaded_iff.mpr ⟨v, hv⟩] at hnew
      cases hnew
    obtain ⟨program, hread, hreproduces⟩ := hlater.ok hresult hnone
    exact ⟨program, result, hread, hresult, hreproduces⟩

/-- A change of the source leaves loaded what does not depend on it. -/
theorem advances_invalidate {session : Session} (hidle : session.modules.loading = [])
    {name : String} {source : Source}
    (hsource : ∀ m, m ≠ name → source.read? m = session.source.read? m) :
    Advances session
      { session with source := source, modules := session.modules.invalidate name } := by
  refine ⟨hidle, ?_, ?_⟩
  · rintro loader m ⟨program, result, hread, hcached, hreproduces⟩ hloaded
    obtain ⟨v, hv⟩ := isLoaded_iff.mp hloaded
    obtain ⟨hv', hne⟩ := Modules.cached?_of_invalidate hv
    obtain rfl : v = result := Option.some.inj (hv'.symm.trans hcached)
    refine ⟨program, v, (hsource m hne).trans hread, hv, hreproduces.of_imports_eq rfl ?_⟩
    intro i hi w hw
    rw [Modules.cached?_invalidate_of_imports hv hi]
    exact hw
  · intro m hnew hloaded
    obtain ⟨v, hv⟩ := isLoaded_iff.mp hloaded
    rw [isLoaded_iff.mpr ⟨v, (Modules.cached?_of_invalidate hv).1⟩] at hnew
    cases hnew

theorem advances_step {s : Progress Session} (hidle : s.host.modules.loading = []) (call : Call) :
    Advances s.host (call.step.start s).2.host := by
  have hchanges := changes_step s call
  generalize (call.step.start s).2.host = later at hchanges
  cases hchanges with
  | executed fuel program => exact advances_withLoaded hidle fuel program
  | refused =>
    refine ⟨hidle, fun h _ ↦ h, fun hnew hloaded ↦ ?_⟩
    rw [hnew] at hloaded
    cases hloaded
  | failed fuel _ type? program => exact advances_withLoaded hidle fuel (annotated type? program)
  | @defined fuel _ type? program =>
    -- a definition changes neither the source nor the modules
    obtain ⟨hlater, hkept, hloaded⟩ := advances_withLoaded hidle fuel (annotated type? program)
    exact ⟨hlater, hkept, hloaded⟩
  | updated name program =>
    exact advances_invalidate hidle fun m hne ↦ Source.read?_write_of_ne _ _ hne
  | forgotten name => exact advances_invalidate hidle fun m hne ↦ Source.read?_forget_of_ne _ hne

/-- Every loaded module was loaded by one of the calls, has been loaded ever since, and is up to
date with the session in which it was loaded. -/
theorem upToDate_after {start : Progress Session} (hstart : start.host.modules = .empty)
    (calls : List Call) :
    (after start calls).host.modules.loading = [] ∧
      ∀ m, (after start calls).host.isLoaded m → ∃ before call since,
        calls = before ++ call :: since ∧ (after start before).host.isLoaded m = false ∧
        (∀ part, part <+: since → (after start (before ++ call :: part)).host.isLoaded m) ∧
        UpToDate (after start before).host (after start calls).host m := by
  induction calls using List.reverseRecOn with
  | nil =>
    change start.host.modules.loading = [] ∧ ∀ m, start.host.isLoaded m → _
    unfold isLoaded
    rw [hstart]
    exact ⟨rfl, by rintro m ⟨⟩⟩
  | append_singleton calls call ih =>
    obtain ⟨hidle, ih⟩ := ih
    have hadvances := advances_step hidle call
    rw [← after_append_singleton] at hadvances
    refine ⟨hadvances.idle, fun m hm ↦ ?_⟩
    cases hbefore : (after start calls).host.isLoaded m with
    | true =>
      obtain ⟨before, loading, since, rfl, hnew, hsince, hupToDate⟩ := ih m hbefore
      refine ⟨before, loading, since ++ [call], by simp, hnew, fun part hpart ↦ ?_,
        hadvances.kept hupToDate hm⟩
      rcases List.prefix_concat_iff.mp hpart with rfl | hpart
      · simpa using hm
      · exact hsince part hpart
    | false =>
      refine ⟨calls, call, [], rfl, hbefore, fun part hpart ↦ ?_, hadvances.loaded hbefore hm⟩
      rw [List.prefix_nil.mp hpart]
      exact hm

/-- Cached modules are never out of date: after any calls, a loaded module has a program in the
source, its recorded imports are loaded, and they and its result are what comes out when the program
is executed in the session that loaded the module, with every request answered from the cache. -/
theorem loaded_upToDate {start : Progress Session} (hstart : start.host.modules = .empty)
    (calls : List Call) (m : String) (hm : (after start calls).host.isLoaded m) :
    ∃ before call since, calls = before ++ call :: since ∧
      (after start before).host.isLoaded m = false ∧
      (∀ part, part <+: since → (after start (before ++ call :: part)).host.isLoaded m) ∧
      ∃ program result fuel,
        (after start calls).host.source.read? m = some program ∧
        (after start calls).host.modules.cached? m = some result ∧
        (∀ i ∈ (after start calls).host.modules.importsOf m, (after start calls).host.isLoaded i) ∧
        ∀ journal, ∃ normalized again s,
          (run fuel (after start before).host (answer (after start calls).host.modules.cached?)
            program).Returns ⟨Modules.alone (some m), journal⟩ (normalized, again) s ∧
          again.content = result.content ∧
          s.host.imports.imports? m = (after start calls).host.modules.imports.imports? m := by
  obtain ⟨before, call, since, hcalls, hnew, hsince, hupToDate⟩ :=
    (upToDate_after hstart calls).2 m hm
  obtain ⟨program, result, hread, hcached, hrequests, fuel, hreplays⟩ := hupToDate
  refine ⟨before, call, since, hcalls, hnew, hsince, program, result, fuel, hread, hcached, ?_, ?_⟩
  · intro i hi
    exact isLoaded_iff.mpr (Option.isSome_iff_exists.mp (hrequests i hi))
  · exact hreplays _ fun _ _ _ h ↦ h

/-- A session whose source has a module with a number and one that adds it to itself. -/
def doubling : Progress Session :=
  let twice := Term.letIn "x" (.importing "one") (.applyAll (.var "plus") [.var "x", .var "x"])
  ⟨{ withPrelude with source := [[("one", Prelude.int 1), ("two", twice)]] }, .empty⟩

/-- The module that is changed here is imported by none that is loaded. -/
def doublingCalls : List Call :=
  [.execute 50 (.importing "two"), .update "three" (.importing "two"),
    .execute 50 (.importing "one")]

theorem loaded_upToDate_doubling :
    doubling.host.modules = .empty ∧ (after doubling doublingCalls).host.isLoaded "two" ∧
      ∃ before program result fuel,
        (after doubling doublingCalls).host.source.read? "two" = some program ∧
        (after doubling doublingCalls).host.modules.cached? "two" = some result ∧
        ∃ normalized again s,
          (run fuel (after doubling before).host
            (answer (after doubling doublingCalls).host.modules.cached?) program).Returns
            ⟨Modules.alone (some "two"), .empty⟩ (normalized, again) s ∧
          again.content = result.content := by
  have hloaded : (after doubling doublingCalls).host.isLoaded "two" := by decide +kernel
  obtain ⟨before, _, _, -, -, -, program, result, fuel, hread, hcached, -, hruns⟩ :=
    @loaded_upToDate doubling rfl doublingCalls "two" hloaded
  obtain ⟨normalized, again, s, hrun, hcontent, -⟩ := hruns .empty
  exact ⟨rfl, hloaded, before, program, result, fuel, hread, hcached, normalized, again, s, hrun,
    hcontent⟩

-- a change of the number makes the sum stale
example :
    (after doubling [.execute 50 (.importing "two"),
      .update "one" (Prelude.int 2)]).host.isLoaded "two" = false := by
  decide +kernel

end Session

end RankedTT
