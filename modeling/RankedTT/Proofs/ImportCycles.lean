import RankedTT.Proofs.Requests
import Mathlib.Data.List.Chain

/-!
Import cycles. The modules that are being loaded form a chain: each is a recorded import of the one
before. Recording a request extends the chain, and as long as a module waits, its imports are kept;
so if a module is requested that is being loaded, the chain leads back to it. None of its modules is
loaded at that moment, nor afterwards, as the failure ends all loads that are under way.
-/

set_option autoImplicit false
set_option relaxedAutoImplicit false

namespace RankedTT

open Run

namespace Modules

/-- Each module that is being loaded is a recorded import of the one before. -/
def Linked (modules : Modules) : Prop :=
  modules.loading.IsChain fun a b ↦ b ∈ modules.importsOf a

/-- A chain of recorded imports that leads from a module back to itself, and meets no other module
twice. -/
structure IsCycle (modules : Modules) (m : String) (cycle : List String) : Prop where
  length : 2 ≤ cycle.length
  first : cycle.head? = some m
  last : cycle.getLast? = some m
  distinct : cycle.dropLast.Nodup
  linked : cycle.IsChain fun a b ↦ b ∈ modules.importsOf a

/-- All but the last member of a chain are followed by another. -/
theorem isChain_of_dropLast {R S : String → String → Prop} {names : List String}
    (h : names.IsChain R) (hRS : ∀ a ∈ names.dropLast, ∀ b, R a b → S a b) : names.IsChain S := by
  rw [List.isChain_iff_forall_rel_of_append_cons_cons] at h ⊢
  rintro a b before after rfl
  refine hRS a ?_ b (h rfl)
  simp

theorem Linked.of_grows {s s₁ : Modules} (h : s.Linked) (hgrows : s.Grows s₁) : s₁.Linked := by
  unfold Linked
  rw [hgrows.loading]
  refine isChain_of_dropLast h fun a ha b hb ↦ ?_
  rwa [importsOf, hgrows.imports (.inr ha)]

end Modules

namespace Session

section Requests

variable {r : Request} (hs : r.state.host.Tidy) (hlinked : r.state.host.Linked)

include hs hlinked

/-- The chain goes on to the requested module. -/
theorem linked_recorded :
    (r.loading ++ [r.name]).IsChain fun a b ↦ b ∈ r.recorded.host.importsOf a := by
  have hrecorded : r.recorded.host.Linked := hlinked.of_grows (grows_recorded hs)
  unfold Modules.Linked at hrecorded
  rw [Request.loading_recorded] at hrecorded
  refine hrecorded.append (List.isChain_singleton _) fun last hlast name hname ↦ ?_
  obtain rfl : r.name = name := Option.some.inj hname
  have himports : r.recorded.host.imports = r.state.host.imports.add last r.name :=
    Modules.imports?_request_of_getLast? hlast
  rw [Modules.importsOf, himports, ImportGraph.mem_imports_add]
  exact .inr rfl

theorem linked_entered (hreads : r.reads = true) : r.entered.host.Linked := by
  unfold Modules.Linked
  rw [Request.loading_entered]
  refine Modules.isChain_of_dropLast (linked_recorded hs hlinked) fun a ha b hb ↦ ?_
  rw [List.dropLast_concat] at ha
  have hne : a ≠ r.name := by
    rintro rfl
    exact (Request.reads_iff.mp hreads).2 ha
  have himports : r.entered.host.imports.imports? a = r.recorded.host.imports.imports? a :=
    Modules.imports?_enter_of_ne hne
  rwa [Modules.importsOf, himports]

/-- A module is requested that is being loaded: from it on, the modules that are being loaded are
the cycle. -/
theorem isCycle_recorded {cycle : List String}
    (hcycle : r.recorded.host.cycle? r.name = some cycle) :
    r.recorded.host.IsCycle r.name cycle ∧ ∀ x ∈ cycle, x ∈ r.loading := by
  obtain ⟨hmem, rfl⟩ := Modules.cycle?_eq_some_iff.mp hcycle
  rw [Request.loading_recorded] at hmem ⊢
  obtain ⟨before, after, hloading, hbefore⟩ := List.eq_append_cons_of_mem hmem
  have hdrop : r.loading.dropWhile (· != r.name) = r.name :: after := by
    rw [hloading, List.dropWhile_append_of_pos, List.dropWhile_cons_of_neg]
    · simp
    · intro x hx
      exact bne_iff_ne.mpr fun h ↦ hbefore (h ▸ hx)
  have hlinked := linked_recorded hs hlinked
  have hnodup : r.loading.Nodup := hs.nodup
  rw [hdrop]
  rw [hloading] at hnodup
  refine ⟨⟨by simp, rfl, List.getLast?_concat, ?_, ?_⟩, fun x hx ↦ ?_⟩
  · rw [List.dropLast_concat]
    exact hnodup.of_append_right
  · rw [hloading, List.append_assoc] at hlinked
    exact hlinked.right_of_append
  · rw [hloading]
    simp only [List.cons_append, List.mem_cons, List.mem_append, List.not_mem_nil, or_false] at hx ⊢
    tauto

end Requests

/-! ### In the course of an execution -/

section Course

variable {s s₁ : Progress Modules} {t : List Request} {o : Outcome SessionError Unit}

/-- A request for a module that is being loaded ends the execution. The modules that are being
loaded are reported, from that module on. -/
theorem Course.reports (h : Course s t o s₁) (hs : s.host.Tidy) {r : Request} (hr : r ∈ t)
    (hloading : r.name ∈ r.loading) :
    o = .error (.error (.importCycle r.name
      (r.loading.dropWhile (· != r.name) ++ [r.name]))) := by
  induction h with
  | quiet => cases hr
  | append first rest ihfirst ihrest =>
    rcases List.mem_append.mp hr with hr | hr
    · cases ihfirst hs hr
    · exact ihrest (first.keeps hs).1 hr
  | found hcached =>
    obtain rfl := List.mem_singleton.mp hr
    rw [hs.unloaded hloading] at hcached
    cases hcached
  | cyclic _ hcycle =>
    obtain rfl := List.mem_singleton.mp hr
    rw [← (Modules.cycle?_eq_some_iff.mp hcycle).2, Request.loading_recorded]
  | missing reads =>
    obtain rfl := List.mem_singleton.mp hr
    exact absurd hloading (Request.reads_iff.mp reads).2
  | stops reads inner ih =>
    rcases List.mem_cons.mp hr with rfl | hr
    · exact absurd hloading (Request.reads_iff.mp reads).2
    · exact ih (tidy_entered hs reads) hr
  | loads reads inner result ih =>
    rcases List.mem_cons.mp hr with rfl | hr
    · exact absurd hloading (Request.reads_iff.mp reads).2
    · cases ih (tidy_entered hs reads) hr

/-- What is reported as a cycle is one, of modules that are not loaded. -/
theorem Course.isCycle (h : Course s t o s₁) (hs : s.host.Tidy) (hlinked : s.host.Linked)
    {m : String} {cycle : List String} (ho : o = .error (.error (.importCycle m cycle))) :
    s₁.host.IsCycle m cycle ∧ ∀ x ∈ cycle, s₁.host.cached? x = none := by
  induction h with
  | quiet _ _ cause => exact absurd ho (cause m cycle)
  | append first rest _ ihrest =>
    obtain ⟨hs₁, hgrows⟩ := first.keeps hs
    exact ihrest hs₁ (hlinked.of_grows hgrows) ho
  | found | loads | missing => cases ho
  | cyclic _ hcycle =>
    cases ho
    obtain ⟨hcycle, hloading⟩ := isCycle_recorded hs hlinked hcycle
    refine ⟨hcycle, fun x hx ↦ ?_⟩
    rw [Request.cached?_recorded]
    exact hs.unloaded (hloading x hx)
  | stops reads inner ih =>
    obtain ⟨hcycle, hcached⟩ := ih (tidy_entered hs reads) (linked_entered hs hlinked reads) ho
    exact ⟨⟨hcycle.length, hcycle.first, hcycle.last, hcycle.distinct, hcycle.linked⟩, hcached⟩

end Course

theorem fails_execute_iff {fuel : Nat} {program : Term} {s : Progress Session}
    {cause : SessionError} :
    (execute fuel program).Fails s cause ↔
      ending (ran fuel program s).1 = .error (.error cause) := by
  unfold Fails outcome
  rw [start_execute]
  cases (ran fuel program s).1 with
  | error stop =>
    exact ⟨fun h ↦ congrArg _ (Except.error.inj h), fun h ↦ congrArg _ (Except.error.inj h)⟩
  | ok x => exact ⟨nofun, nofun⟩

/-- In every session between calls: if a program that is run for an execution requests a module that
is being loaded, the execution reports an import cycle of that module, through all modules that are
being loaded since; and an import cycle that an execution reports is a cycle of recorded imports,
none of whose modules is loaded afterwards. -/
theorem importCycles_truthful {s : Progress Session} (hs : Reachable s) (fuel : Nat)
    (program : Term) :
    (∀ r ∈ allRequests fuel program s, r.name ∈ r.loading →
      (execute fuel program).Fails s
        (.importCycle r.name (r.loading.dropWhile (· != r.name) ++ [r.name]))) ∧
    ∀ m cycle, (execute fuel program).Fails s (.importCycle m cycle) →
      let later := ((execute fuel program).start s).2.host
      later.modules.IsCycle m cycle ∧ ∀ x ∈ cycle, later.isLoaded x = false := by
  have hidle : s.host.modules.loading = [] := hs.orderly.idle
  have hcourse := course_ran fuel program s
  have htidy : s.host.modules.Tidy := sound_anyResults hidle fuel
  have hlinked : s.host.modules.Linked := by
    rw [Modules.Linked, hidle]
    exact .nil
  refine ⟨fun r hr hloading ↦ ?_, fun m cycle hfails ↦ ?_⟩
  · exact fails_execute_iff.mpr (hcourse.reports htidy hr hloading)
  · obtain ⟨hcycle, hcached⟩ := hcourse.isCycle htidy hlinked (fails_execute_iff.mp hfails)
    rw [start_execute]
    refine ⟨hcycle, fun x hx ↦ ?_⟩
    rw [← Bool.not_eq_true, isLoaded_iff]
    rintro ⟨v, hv⟩
    exact absurd ((hcached x hx).symm.trans hv) nofun

/-- The first module imports the second, which imports the third, which imports the second. -/
def circular : Progress Session :=
  ⟨{ withPrelude with source := [[("one", .importing "two"), ("two", .importing "three"),
    ("three", .importing "two")]] }, .empty⟩

theorem importCycles_truthful_circular :
    let cycle := ["two", "three", "two"]
    let later := ((execute 50 (.importing "one")).start circular).2.host
    Reachable circular ∧
      (execute 50 (.importing "one")).Fails circular (.importCycle "two" cycle) ∧
      later.modules.IsCycle "two" cycle ∧ ∀ x ∈ cycle, later.isLoaded x = false := by
  intro cycle later
  have hs : Reachable circular := .withSource _ (.withPrelude _)
  have hrequests : (allRequests 50 (.importing "one") circular).any
      fun r ↦ r.name == "two" && r.loading == ["one", "two", "three"] := by decide +kernel
  obtain ⟨r, hr, hname⟩ := List.any_eq_true.mp hrequests
  rw [Bool.and_eq_true, beq_iff_eq, beq_iff_eq] at hname
  obtain ⟨hname, hloading⟩ := hname
  obtain ⟨hreported, htruthful⟩ := importCycles_truthful hs 50 (.importing "one")
  have hfails := hreported r hr (by rw [hname, hloading]; decide)
  rw [hname, hloading] at hfails
  exact ⟨hs, hfails, htruthful "two" cycle hfails⟩

end Session

end RankedTT
