import RankedTT.Proofs.Requests
import Mathlib.Data.Finset.Card
import Mathlib.Data.List.Perm.Basic
import Mathlib.Data.Prod.Lex
import Mathlib.Logic.Relation

/-!
Invalidation reaches exactly the modules from which the changed module can be reached by following
imports. They can be found by a search that keeps a stack of modules to look at: the module on top
is taken from the stack, and if it was not visited before, all modules that import it are pushed, in
whatever order the graph has them. Such a search ends in every graph, with cycles or without, and
whatever the order was, it has found the same modules, each of them once; what is marked as stale is
what it has found.
-/

set_option autoImplicit false
set_option relaxedAutoImplicit false

namespace RankedTT

namespace ImportGraph

variable (graph : ImportGraph)

/-- A recorded import. -/
def Imports (importer target : String) : Prop :=
  ∃ targets, (importer, targets) ∈ graph ∧ target ∈ targets

/-- The second module can be reached from the first one by following imports, if only because it is
the first one. -/
abbrev Leads : String → String → Prop := Relation.ReflTransGen graph.Imports

/-- No module has two entries. -/
def Distinct : Prop := (List.map Prod.fst graph).Nodup

/-- The modules that import `m`. -/
def importers (m : String) : List String :=
  (List.filter (fun entry ↦ entry.2.contains m) graph).map Prod.fst

variable {graph} {m x y : String}

theorem mem_importers_iff : x ∈ graph.importers m ↔ graph.Imports x m := by
  simp [importers, Imports]

/-- What is closed and has a module has everything that leads to the module. -/
theorem IsClosed.mem_of_leads {reached : List String} (h : graph.IsClosed reached)
    (hm : m ∈ reached) (hx : graph.Leads x m) : x ∈ reached := by
  induction hx using Relation.ReflTransGen.head_induction_on with
  | refl => exact hm
  | head first _ ih =>
    obtain ⟨targets, hmem, htarget⟩ := first
    exact h _ targets hmem ⟨_, htarget, ih⟩

/-! ### The search with a stack -/

structure Search where
  /-- What is still to be looked at, the top first. -/
  stack : List String
  visited : Finset String
  /-- What has been found, in the order in which it was visited. -/
  found : List String

/-- The search for the modules that lead to `m`. -/
def search (m : String) : Search := ⟨[m], ∅, []⟩

namespace Search

/-- One round. The importers of a module are pushed in any order. -/
inductive Step (graph : ImportGraph) : Search → Search → Prop
  | skip {top : String} {stack : List String} {visited : Finset String} {found : List String}
      (old : top ∈ visited) : Step graph ⟨top :: stack, visited, found⟩ ⟨stack, visited, found⟩
  | visit {top : String} {stack pushed : List String} {visited : Finset String}
      {found : List String} (new : top ∉ visited) (order : pushed.Perm (graph.importers top)) :
      Step graph ⟨top :: stack, visited, found⟩
        ⟨pushed ++ stack, insert top visited, found ++ [top]⟩

/-- What may still be visited: the modules of the graph and those on the stack. -/
def unvisited (graph : ImportGraph) (s : Search) : Finset String :=
  (List.map Prod.fst graph ++ s.stack).toFinset \ s.visited

theorem mem_unvisited_iff {s : Search} :
    x ∈ s.unvisited graph ↔ (x ∈ List.map Prod.fst graph ∨ x ∈ s.stack) ∧ x ∉ s.visited := by
  simp only [unvisited, Finset.mem_sdiff, List.mem_toFinset, List.mem_append]

theorem mem_keys_of_mem_importers (h : x ∈ graph.importers m) : x ∈ List.map Prod.fst graph := by
  obtain ⟨targets, hmem, -⟩ := mem_importers_iff.mp h
  exact List.mem_map_of_mem hmem

/-- A round visits one module more, or the stack gets shorter. -/
theorem Step.decreases {s s' : Search} (h : Step graph s s') :
    (s'.unvisited graph).card < (s.unvisited graph).card ∨
      (s'.unvisited graph).card ≤ (s.unvisited graph).card ∧ s'.stack.length < s.stack.length := by
  cases h with
  | skip old =>
    refine .inr ⟨Finset.card_le_card fun x hx ↦ ?_, Nat.lt_succ_self _⟩
    rw [mem_unvisited_iff] at hx ⊢
    exact ⟨hx.1.imp_right (List.mem_cons_of_mem _), hx.2⟩
  | @visit top stack pushed visited found new order =>
    refine .inl (Finset.card_lt_card
      ((Finset.ssubset_iff_of_subset fun x hx ↦ ?_).mpr ⟨top, ?_, ?_⟩))
    · simp only [mem_unvisited_iff, List.mem_append, Finset.mem_insert, not_or] at hx ⊢
      obtain ⟨hx | hx | hx, -, hvisited⟩ := hx
      · exact ⟨.inl hx, hvisited⟩
      · exact ⟨.inl (mem_keys_of_mem_importers (order.subset hx)), hvisited⟩
      · exact ⟨.inr (List.mem_cons_of_mem _ hx), hvisited⟩
    · exact mem_unvisited_iff.mpr ⟨.inr List.mem_cons_self, new⟩
    · simp [mem_unvisited_iff]

/-- No search goes on forever. -/
theorem wellFounded_step : WellFounded fun s' s ↦ Step graph s s' := by
  have hlex : WellFounded (Prod.Lex (· < ·) (· < ·) : Nat × Nat → Nat × Nat → Prop) :=
    WellFounded.prod_lex wellFounded_lt wellFounded_lt
  refine Subrelation.wf (fun {s' s} h ↦ ?_)
    (InvImage.wf (fun s : Search ↦ ((s.unvisited graph).card, s.stack.length)) hlex)
  refine Prod.lex_def.mpr ?_
  rcases Step.decreases h with hcard | ⟨hcard, hlength⟩
  · exact .inl hcard
  · exact hcard.lt_or_eq.imp_right fun hcard ↦ ⟨hcard, hlength⟩

/-- As long as the stack is not empty, there is a next round. -/
theorem exists_step {s : Search} (h : s.stack ≠ []) : ∃ s', Step graph s s' := by
  obtain ⟨_ | ⟨top, stack⟩, visited, found⟩ := s
  · exact absurd rfl h
  · by_cases hold : top ∈ visited
    · exact ⟨_, .skip hold⟩
    · exact ⟨_, .visit hold (.refl _)⟩

/-- What holds between two rounds of the search for what leads to `m`. -/
structure Traces (graph : ImportGraph) (m : String) (s : Search) : Prop where
  nodup : s.found.Nodup
  visited : ∀ {x}, x ∈ s.visited ↔ x ∈ s.found
  leads : ∀ {x}, x ∈ s.stack ∨ x ∈ s.found → graph.Leads x m
  start : m ∈ s.stack ∨ m ∈ s.found
  importers : ∀ {x y}, x ∈ s.found → graph.Imports y x → y ∈ s.stack ∨ y ∈ s.found

theorem traces_search (m : String) : (search m).Traces graph m where
  nodup := List.nodup_nil
  visited := by simp [search]
  leads h := by
    obtain rfl : _ = m := by simpa [search] using h
    exact .refl
  start := .inl (List.mem_singleton_self m)
  importers := nofun

theorem Traces.step {s s' : Search} (hs : s.Traces graph m) (h : Step graph s s') :
    s'.Traces graph m := by
  cases h with
  | @skip top stack visited found old =>
    -- what leaves the stack has been found already
    have hfound : top ∈ found := hs.visited.mp old
    have hmem {x : String} (hx : x ∈ top :: stack ∨ x ∈ found) : x ∈ stack ∨ x ∈ found := by
      rcases hx with hx | hx
      · rcases List.mem_cons.mp hx with rfl | hx
        · exact .inr hfound
        · exact .inl hx
      · exact .inr hx
    exact ⟨hs.nodup, hs.visited, fun hx ↦ hs.leads (hx.imp_left (List.mem_cons_of_mem _)),
      hmem hs.start, fun hx hy ↦ hmem (hs.importers hx hy)⟩
  | @visit top stack pushed visited found new order =>
    have hpushed {x : String} : x ∈ pushed ↔ graph.Imports x top :=
      order.mem_iff.trans mem_importers_iff
    have htop : graph.Leads top m := hs.leads (.inl List.mem_cons_self)
    have hmem {x : String} (hx : x ∈ top :: stack ∨ x ∈ found) :
        x ∈ pushed ++ stack ∨ x ∈ found ++ [top] := by
      simp only [List.mem_cons, List.mem_append, List.not_mem_nil, or_false] at hx ⊢
      tauto
    constructor
    · refine hs.nodup.append (List.nodup_singleton top) (List.disjoint_singleton.mpr ?_)
      exact mt hs.visited.mpr new
    · intro x
      rw [Finset.mem_insert, List.mem_append, List.mem_singleton, or_comm]
      exact or_congr_left hs.visited
    · intro x hx
      rw [List.mem_append, List.mem_append, List.mem_singleton] at hx
      rcases hx with (hx | hx) | hx | rfl
      · exact .head (hpushed.mp hx) htop
      · exact hs.leads (.inl (List.mem_cons_of_mem _ hx))
      · exact hs.leads (.inr hx)
      · exact htop
    · exact hmem hs.start
    · intro x y hx hy
      rcases List.mem_append.mp hx with hx | hx
      · exact hmem (hs.importers hx hy)
      · obtain rfl := List.mem_singleton.mp hx
        exact .inl (List.mem_append_left _ (hpushed.mpr hy))

theorem Traces.steps {s s' : Search} (hs : s.Traces graph m)
    (h : Relation.ReflTransGen (Step graph) s s') : s'.Traces graph m := by
  induction h with
  | refl => exact hs
  | tail _ hstep ih => exact ih.step hstep

end Search

/-- The modules that lead to `m`, each of them once. -/
structure Finds (graph : ImportGraph) (m : String) (found : List String) : Prop where
  nodup : found.Nodup
  mem_iff : ∀ x, x ∈ found ↔ graph.Leads x m

theorem Finds.perm {found found' : List String} (h : graph.Finds m found)
    (h' : graph.Finds m found') : found.Perm found' :=
  (List.perm_ext_iff_of_nodup h.nodup h'.nodup).mpr fun x ↦ (h.mem_iff x).trans (h'.mem_iff x).symm

theorem Search.Traces.finds {s : Search} (hs : s.Traces graph m) (hstack : s.stack = []) :
    graph.Finds m s.found := by
  have hclosed : graph.IsClosed s.found := by
    rintro y targets hmem ⟨x, htarget, hx⟩
    refine (hs.importers hx ⟨targets, hmem, htarget⟩).resolve_left ?_
    rw [hstack]
    exact List.not_mem_nil
  have hm : m ∈ s.found := by
    refine hs.start.resolve_left ?_
    rw [hstack]
    exact List.not_mem_nil
  exact ⟨hs.nodup, fun x ↦ ⟨fun hx ↦ hs.leads (.inr hx), hclosed.mem_of_leads hm⟩⟩

/-! ### The search in rounds -/

theorem mem_importersOf_iff {reached : List String} :
    x ∈ graph.importersOf reached ↔ x ∉ reached ∧ ∃ y ∈ reached, graph.Imports x y := by
  simp only [importersOf, List.mem_map, List.mem_filter, Bool.and_eq_true, Bool.not_eq_true',
    List.contains_eq_mem, decide_eq_false_iff_not, List.any_eq_true, decide_eq_true_eq]
  constructor
  · rintro ⟨⟨x, targets⟩, ⟨hmem, hnew, y, htarget, hy⟩, rfl⟩
    exact ⟨hnew, y, hy, targets, hmem, htarget⟩
  · rintro ⟨hnew, y, hy, targets, hmem, htarget⟩
    exact ⟨(x, targets), ⟨hmem, hnew, y, htarget, hy⟩, rfl⟩

theorem leads_of_mem_reachBack {reached : List String} (h : ∀ y ∈ reached, graph.Leads y m)
    (n : Nat) (hx : x ∈ graph.reachBack n reached) : graph.Leads x m := by
  induction n generalizing reached with
  | zero => exact h x hx
  | succ n ih =>
    refine ih (fun y hy ↦ ?_) hx
    rcases List.mem_append.mp hy with hy | hy
    · exact h y hy
    · obtain ⟨-, z, hz, himports⟩ := mem_importersOf_iff.mp hy
      exact .head himports (h z hz)

theorem nodup_reachBack (h : graph.Distinct) {reached : List String} (hreached : reached.Nodup)
    (n : Nat) : (graph.reachBack n reached).Nodup := by
  induction n generalizing reached with
  | zero => exact hreached
  | succ n ih =>
    refine ih (hreached.append (h.sublist (List.filter_sublist.map _)) fun x hx hnew ↦ ?_)
    exact (mem_importersOf_iff.mp hnew).1 hx

theorem mem_reverseDependencies_iff : x ∈ graph.reverseDependencies m ↔ graph.Leads x m := by
  refine ⟨leads_of_mem_reachBack (fun y hy ↦ ?_) _,
    (isClosed_reverseDependencies m).mem_of_leads (self_mem_reverseDependencies m)⟩
  rw [List.mem_singleton.mp hy]

theorem finds_reverseDependencies (h : graph.Distinct) (m : String) :
    graph.Finds m (graph.reverseDependencies m) :=
  ⟨nodup_reachBack h (List.nodup_singleton m) _, fun _ ↦ mem_reverseDependencies_iff⟩

/-! ### Graphs that are recorded -/

theorem distinct_erase (h : graph.Distinct) (m : String) : (graph.erase m).Distinct :=
  h.sublist (List.filter_sublist.map _)

theorem not_mem_keys_erase (m : String) : m ∉ List.map Prod.fst (graph.erase m) := by
  intro hm
  obtain ⟨entry, hentry, rfl⟩ := List.mem_map.mp hm
  exact absurd (List.mem_filter.mp hentry).2 (by simp)

theorem distinct_add (h : graph.Distinct) (m target : String) : (graph.add m target).Distinct := by
  unfold add
  split
  · rename_i hnone
    refine List.nodup_cons.mpr ⟨fun hm ↦ ?_, h⟩
    obtain ⟨entry, hentry, rfl⟩ := List.mem_map.mp hm
    exact absurd (List.lookup_eq_none_iff.mp hnone entry hentry) (by simp)
  · split
    · exact h
    · exact List.nodup_cons.mpr ⟨not_mem_keys_erase m, distinct_erase h m⟩

end ImportGraph

namespace Session

open Run

theorem distinct_recorded {r : Request} (h : r.state.host.imports.Distinct) :
    r.recorded.host.imports.Distinct := by
  change (r.state.host.request r.name).imports.Distinct
  unfold Modules.request
  split
  · exact ImportGraph.distinct_add h _ _
  · exact h

theorem Course.distinct {s s₁ : Progress Modules} {t : List Request}
    {o : Outcome SessionError Unit} (h : Course s t o s₁) (hs : s.host.imports.Distinct) :
    s₁.host.imports.Distinct := by
  induction h with
  | quiet host => rwa [host]
  | append _ _ ihfirst ihrest => exact ihrest (ihfirst hs)
  | found | cyclic | missing => exact distinct_recorded hs
  | stops _ _ ih | loads _ _ _ ih =>
    exact ih (ImportGraph.distinct_erase (distinct_recorded hs) _)

/-- The recorded imports of a session are a map from modules to their imports. -/
theorem Reachable.distinct_imports {s : Progress Session} (hs : Reachable s) :
    s.host.modules.imports.Distinct := by
  induction hs with
  | empty | withPrelude => exact List.nodup_nil
  | withSource _ _ ih | withSettings _ _ ih => exact ih
  | @step s call _ ih =>
    have hran (fuel : Nat) (program : Term) :
        (withLoaded fuel program s).modules.imports.Distinct :=
      (course_ran fuel program s).distinct ih
    have hchanges := changes_step s call
    generalize (call.step.start s).2.host = later at hchanges
    cases hchanges with
    | executed | failed | defined => exact hran _ _
    | refused | updated | forgotten => exact ih

/-! ### What becomes stale -/

/-- The modules that lead to `m` are not loaded any more; of all others, the cache holds what it
held. -/
structure Invalidated (m : String) (session later : Session) : Prop where
  loaded : ∀ x, later.isLoaded x = true ↔
    session.isLoaded x = true ∧ ¬ session.modules.imports.Leads x m
  kept : ∀ x, ¬ session.modules.imports.Leads x m →
    later.modules.loaded.find? x = session.modules.loaded.find? x

theorem find?_foldl_invalidate {cache : Cache (Classified Value)} {names : List String} {x : String}
    (h : x ∉ names) : (names.foldl Cache.invalidate cache).find? x = cache.find? x := by
  induction names generalizing cache with
  | nil => rfl
  | cons name names ih =>
    rw [List.mem_cons, not_or] at h
    rw [List.foldl_cons, ih h.2, Cache.find?_invalidate]
    simp [h.1]

theorem invalidated_of_modules {m : String} {session later : Session}
    (h : later.modules = session.modules.invalidate m) : Invalidated m session later := by
  constructor
  · intro x
    rw [isLoaded_iff, isLoaded_iff, h, Modules.cached?_invalidate,
      ← ImportGraph.mem_reverseDependencies_iff]
    by_cases hx : x ∈ session.modules.imports.reverseDependencies m <;> simp [hx]
  · intro x hx
    rw [h]
    exact find?_foldl_invalidate (mt ImportGraph.mem_reverseDependencies_iff.mp hx)

/-- For every graph that is a map from modules to their imports, and every module: the search for
what leads to the module ends, in whatever order the importers are pushed, and has then found the
modules that lead to it, each of them once; they are the reverse dependencies of the module. The
recorded imports of every session are such a map; and updating a module and forgetting it make
exactly the modules not loaded that lead to it, and leave the loaded status and the cached results
of all others as they were. -/
theorem invalidation_exact :
    (∀ (graph : ImportGraph) (m : String), graph.Distinct →
      WellFounded (fun s' s ↦ ImportGraph.Search.Step graph s s') ∧
      (∀ s, Relation.ReflTransGen (ImportGraph.Search.Step graph) (ImportGraph.search m) s →
        (s.stack ≠ [] → ∃ s', ImportGraph.Search.Step graph s s') ∧
        (s.stack = [] → graph.Finds m s.found ∧ s.found.Perm (graph.reverseDependencies m))) ∧
      graph.Finds m (graph.reverseDependencies m)) ∧
    (∀ s, Reachable s → s.host.modules.imports.Distinct) ∧
    ∀ (session : Session) (m : String) (program : Term),
      Invalidated m session (session.updateModule m program) ∧
      Invalidated m session (session.forgetModule m).2 := by
  refine ⟨fun graph m hdistinct ↦ ⟨ImportGraph.Search.wellFounded_step, fun s hs ↦ ?_,
    ImportGraph.finds_reverseDependencies hdistinct m⟩, fun s hs ↦ hs.distinct_imports,
    fun session m program ↦ ⟨invalidated_of_modules rfl, invalidated_of_modules rfl⟩⟩
  refine ⟨ImportGraph.Search.exists_step, fun hstack ↦ ?_⟩
  have hfinds : graph.Finds m s.found :=
    ((ImportGraph.Search.traces_search m).steps hs).finds hstack
  exact ⟨hfinds, hfinds.perm (ImportGraph.finds_reverseDependencies hdistinct m)⟩

/-- Two modules import each other, a third one imports one of them, and the last module imports
nothing. -/
theorem invalidation_exact_cyclic :
    let graph : ImportGraph := [("main", ["lib"]), ("lib", ["base", "main"]), ("other", ["lib"])]
    graph.Distinct ∧ graph.reverseDependencies "base" = ["base", "lib", "main", "other"] ∧
      ∀ x, x ∈ ["base", "lib", "main", "other"] ↔ graph.Leads x "base" := by
  intro graph
  have hdistinct : graph.Distinct := by
    unfold ImportGraph.Distinct
    decide
  have hreverse : graph.reverseDependencies "base" = ["base", "lib", "main", "other"] := by
    decide
  obtain ⟨-, -, hfinds⟩ := invalidation_exact.1 graph "base" hdistinct
  rw [hreverse] at hfinds
  exact ⟨hdistinct, hreverse, hfinds.mem_iff⟩

end Session

end RankedTT
