import RankedTT.Proofs.Simulation
import RankedTT.Session.Basic

/-!
The state of the loaded modules. A look-up in the cache after a result was put in, or after results
became stale; the recorded imports after one was added, or after those of a module were forgotten;
and the modules that become stale with a module: they include every module that imports one of them.
Reading a module from the source only depends on what was last written under its name.
-/

set_option autoImplicit false
set_option relaxedAutoImplicit false

namespace RankedTT

/-! ### The cache -/

namespace Cache

variable {α : Type} (cache : Cache α)

theorem getUnlessStale?_eq_some_iff {cache : Cache α} {name : String} {v : α} :
    cache.getUnlessStale? name = some v ↔ cache.find? name = some ⟨v, false⟩ := by
  unfold getUnlessStale? isStale getEvenIfStale?
  cases h : cache.find? name with
  | none => simp
  | some entry =>
    obtain ⟨value, stale⟩ := entry
    cases stale <;> simp

theorem isStale_eq_false_iff {cache : Cache α} {name : String} :
    cache.isStale name = false ↔ ∃ v, cache.getUnlessStale? name = some v := by
  unfold getUnlessStale? isStale getEvenIfStale?
  cases h : cache.find? name with
  | none => simp
  | some entry =>
    obtain ⟨value, stale⟩ := entry
    cases stale <;> simp

theorem lookup_filter_ne {β : Type} (entries : List (String × β)) {name x : String} (h : x ≠ name) :
    List.lookup x (entries.filter fun entry ↦ entry.1 != name) = List.lookup x entries := by
  induction entries with
  | nil => rfl
  | cons entry entries ih =>
    rw [List.filter_cons, List.lookup_cons]
    by_cases hentry : entry.1 = name
    · have hx : (x == entry.1) = false := beq_eq_false_iff_ne.mpr (hentry ▸ h)
      rw [if_neg (by simpa using hentry), ih, hx]
    · rw [if_pos (by simpa using hentry), List.lookup_cons, ih]

@[simp]
theorem getUnlessStale?_insert_self (name : String) (v : α) :
    (cache.insert name v).getUnlessStale? name = some v := by
  rw [getUnlessStale?_eq_some_iff, find?, insert, List.lookup_cons_self]

theorem getUnlessStale?_insert_of_ne {name x : String} (v : α) (h : x ≠ name) :
    (cache.insert name v).getUnlessStale? x = cache.getUnlessStale? x := by
  have hfind : (cache.insert name v).find? x = cache.find? x := by
    rw [find?, insert, List.lookup_cons, beq_eq_false_iff_ne.mpr h]
    exact lookup_filter_ne cache h
  unfold getUnlessStale? isStale getEvenIfStale?
  rw [hfind]

theorem find?_invalidate (name x : String) :
    (cache.invalidate name).find? x =
      (cache.find? x).map fun entry ↦ if x = name then { entry with stale := true } else entry := by
  unfold invalidate find?
  induction cache with
  | nil => rfl
  | cons entry cache ih =>
    rw [List.map_cons, List.lookup_cons, List.lookup_cons]
    by_cases hx : x = entry.1
    · by_cases hentry : entry.1 = name <;> simp [hx, hentry]
    · have hfirst : ∀ y, (if entry.1 == name then (name, y) else entry).1 = entry.1 := by
        intro y
        split
        · exact (beq_iff_eq.mp ‹_›).symm
        · rfl
      rw [hfirst, beq_eq_false_iff_ne.mpr hx]
      exact ih

theorem getUnlessStale?_invalidate (name x : String) :
    (cache.invalidate name).getUnlessStale? x =
      if x = name then none else cache.getUnlessStale? x := by
  unfold getUnlessStale? isStale getEvenIfStale?
  rw [find?_invalidate]
  by_cases hx : x = name
  · cases cache.find? x <;> simp [hx]
  · cases cache.find? x <;> simp [hx]

theorem getUnlessStale?_foldl_invalidate (names : List String) (x : String) :
    (names.foldl invalidate cache).getUnlessStale? x =
      if x ∈ names then none else cache.getUnlessStale? x := by
  induction names generalizing cache with
  | nil => simp
  | cons name names ih =>
    rw [List.foldl_cons, ih, getUnlessStale?_invalidate]
    by_cases hx : x = name <;> by_cases hmem : x ∈ names <;> simp [hx, hmem]

end Cache

/-! ### Imports -/

namespace ImportGraph

variable (graph : ImportGraph)

@[simp]
theorem imports?_erase_self (m : String) : (graph.erase m).imports? m = none := by
  rw [imports?, erase, List.lookup_eq_none_iff]
  intro entry hentry
  have hne : entry.1 ≠ m := bne_iff_ne.mp (List.mem_filter.mp hentry).2
  exact bne_iff_ne.mpr hne.symm

theorem imports?_erase_of_ne {m x : String} (h : x ≠ m) :
    (graph.erase m).imports? x = graph.imports? x :=
  Cache.lookup_filter_ne graph h

/-- A new import comes after the others; one that is recorded is not recorded twice. -/
theorem imports?_add_self (m target : String) :
    (graph.add m target).imports? m =
      some (if target ∈ (graph.imports? m).getD [] then (graph.imports? m).getD []
        else (graph.imports? m).getD [] ++ [target]) := by
  unfold add
  cases h : graph.imports? m with
  | none => simp [imports?]
  | some targets =>
    by_cases hmem : target ∈ targets
    · simp [hmem, h]
    · simp [hmem, imports?]

theorem imports?_add_of_ne {m x : String} (target : String) (h : x ≠ m) :
    (graph.add m target).imports? x = graph.imports? x := by
  have hx : (x == m) = false := beq_eq_false_iff_ne.mpr h
  unfold add
  cases graph.imports? m with
  | none => simp [imports?, List.lookup_cons, hx]
  | some targets =>
    by_cases hmem : target ∈ targets
    · simp [hmem]
    · simp only [hmem, List.contains_eq_mem, decide_false, Bool.false_eq_true, if_false]
      rw [imports?, List.lookup_cons, hx]
      exact imports?_erase_of_ne graph h

/-- What adding an import makes of the imports of a module depends on these imports only. -/
theorem imports?_add_congr {graph graph' : ImportGraph} {m : String} (target : String)
    (h : graph.imports? m = graph'.imports? m) :
    (graph.add m target).imports? m = (graph'.add m target).imports? m := by
  rw [imports?_add_self, imports?_add_self, h]

theorem mem_imports_add {m target i : String} :
    i ∈ ((graph.add m target).imports? m).getD [] ↔
      i ∈ (graph.imports? m).getD [] ∨ i = target := by
  rw [imports?_add_self, Option.getD_some]
  split
  · rename_i hmem
    constructor
    · exact .inl
    · rintro (h | rfl)
      · exact h
      · exact hmem
  · simp

/-- Every module that imports one of the list is in the list. -/
def IsClosed (reached : List String) : Prop :=
  ∀ m targets, (m, targets) ∈ graph → (∃ t ∈ targets, t ∈ reached) → m ∈ reached

/-- The number of modules of the graph that are in the list. -/
def covered (reached : List String) : Nat :=
  (graph.filter fun entry ↦ reached.contains entry.1).length

variable {graph}

theorem isClosed_iff {reached : List String} :
    graph.IsClosed reached ↔ graph.importersOf reached = [] := by
  unfold IsClosed importersOf
  rw [List.map_eq_nil_iff, List.filter_eq_nil_iff]
  constructor
  · rintro h ⟨m, targets⟩ hmem hnot
    simp only [Bool.and_eq_true, Bool.not_eq_true', List.any_eq_true, List.contains_eq_mem,
      decide_eq_false_iff_not, decide_eq_true_eq] at hnot
    exact hnot.1 (h m targets hmem hnot.2)
  · intro h m targets hmem hreached
    have hnot := h (m, targets) hmem
    simp only [Bool.and_eq_true, Bool.not_eq_true', List.any_eq_true, List.contains_eq_mem,
      decide_eq_false_iff_not, decide_eq_true_eq, not_and] at hnot
    by_contra hm
    exact hnot hm hreached

theorem reachBack_of_isClosed {reached : List String} (h : graph.IsClosed reached) (n : Nat) :
    graph.reachBack n reached = reached := by
  induction n with
  | zero => rfl
  | succ n ih => rw [reachBack, isClosed_iff.mp h, List.append_nil, ih]

theorem covered_le_length (reached : List String) : graph.covered reached ≤ graph.length :=
  List.length_filter_le _ _

/-- A round that finds a module covers one more. -/
theorem covered_lt_of_not_isClosed {reached : List String} (h : ¬ graph.IsClosed reached) :
    graph.covered reached < graph.covered (reached ++ graph.importersOf reached) := by
  obtain ⟨importer, himporter⟩ := List.exists_mem_of_ne_nil _ (mt isClosed_iff.mpr h)
  obtain ⟨⟨importer, targets⟩, hfilter, rfl⟩ := List.mem_map.mp himporter
  obtain ⟨hmem, hnew⟩ := List.mem_filter.mp hfilter
  have hsub : (graph.filter fun entry ↦ reached.contains entry.1).Sublist
      (graph.filter fun entry ↦ (reached ++ graph.importersOf reached).contains entry.1) := by
    refine List.monotone_filter_right graph fun entry hentry ↦ ?_
    simp only [List.contains_eq_mem, decide_eq_true_eq] at hentry ⊢
    exact List.mem_append_left _ hentry
  refine Nat.lt_of_le_of_ne hsub.length_le fun hlength ↦ ?_
  have hcovered : (importer, targets) ∈
      graph.filter fun entry ↦ (reached ++ graph.importersOf reached).contains entry.1 := by
    refine List.mem_filter.mpr ⟨hmem, ?_⟩
    simpa using Or.inr himporter
  rw [← hsub.eq_of_length hlength] at hcovered
  have hold := (List.mem_filter.mp hcovered).2
  simp only [hold, Bool.not_true, Bool.false_and, Bool.false_eq_true] at hnew

/-- As many rounds as the graph has modules reach everything. -/
theorem isClosed_reachBack_or (n : Nat) (reached : List String) :
    graph.IsClosed (graph.reachBack n reached) ∨
      n + graph.covered reached ≤ graph.covered (graph.reachBack n reached) := by
  induction n generalizing reached with
  | zero => exact .inr (by simp [reachBack])
  | succ n ih =>
    by_cases hclosed : graph.IsClosed reached
    · rw [reachBack_of_isClosed hclosed]
      exact .inl hclosed
    · have hlt := covered_lt_of_not_isClosed hclosed
      rw [reachBack]
      exact (ih _).imp_right fun h ↦ by omega

theorem mem_reachBack {reached : List String} {x : String} (h : x ∈ reached) (n : Nat) :
    x ∈ graph.reachBack n reached := by
  induction n generalizing reached with
  | zero => exact h
  | succ n ih => exact ih (List.mem_append_left _ h)

theorem self_mem_reverseDependencies (m : String) : m ∈ graph.reverseDependencies m :=
  mem_reachBack (List.mem_singleton_self m) _

theorem isClosed_reverseDependencies (m : String) :
    graph.IsClosed (graph.reverseDependencies m) := by
  rcases isClosed_reachBack_or graph.length [m] with h | h
  · exact h
  · -- the list covers the whole graph
    have hall : graph.covered (graph.reachBack graph.length [m]) = graph.length := by
      have hle : graph.covered (graph.reachBack graph.length [m]) ≤ graph.length :=
        covered_le_length _
      omega
    intro importer targets hmem _
    have hentry := List.length_filter_eq_length_iff.mp hall (importer, targets) hmem
    simpa [reverseDependencies] using hentry

/-- Whoever imports a module that becomes stale becomes stale. -/
theorem mem_reverseDependencies_of_imports {m importer i : String}
    (hi : i ∈ (graph.imports? importer).getD []) (hstale : i ∈ graph.reverseDependencies m) :
    importer ∈ graph.reverseDependencies m := by
  cases himports : graph.imports? importer with
  | none => simp [himports] at hi
  | some targets =>
    rw [himports] at hi
    obtain ⟨before, after, hgraph, -⟩ := List.lookup_eq_some_iff.mp himports
    exact isClosed_reverseDependencies m importer targets (by rw [hgraph]; simp)
      ⟨i, hi, hstale⟩

end ImportGraph

/-! ### The source -/

namespace Source

theorem lookup_insert_of_ne (layer : Layer) {name x : String} (program : Term) (h : x ≠ name) :
    List.lookup x (layer.insert name program) = List.lookup x layer := by
  rw [Layer.insert, List.lookup_cons, beq_eq_false_iff_ne.mpr h]
  exact Cache.lookup_filter_ne layer h

theorem read?_cons (layer : Layer) (below : Source) (x : String) :
    Source.read? (layer :: below) x = (List.lookup x layer).or (Source.read? below x) := by
  rw [read?, List.findSome?_cons]
  cases List.lookup x layer <;> rfl

theorem read?_replace_of_ne (source : Source) {name x : String} (program : Term) (h : x ≠ name) :
    (replace name program source).read? x = source.read? x := by
  induction source with
  | nil => rfl
  | cons layer below ih =>
    rw [replace]
    split
    · rw [read?_cons, read?_cons, lookup_insert_of_ne layer program h]
    · rw [read?_cons, read?_cons, ih]

/-- Writing a program leaves the others as they are. -/
theorem read?_write_of_ne (source : Source) {name x : String} (program : Term) (h : x ≠ name) :
    (source.write name program).read? x = source.read? x := by
  unfold write
  split
  · exact read?_replace_of_ne source program h
  · cases source with
    | nil => rw [read?_cons, lookup_insert_of_ne [] program h]; rfl
    | cons layer below => rw [read?_cons, read?_cons, lookup_insert_of_ne layer program h]

theorem read?_forget_of_ne (source : Source) {name x : String} (h : x ≠ name) :
    (forget name source).read? x = source.read? x := by
  induction source with
  | nil => rfl
  | cons layer below ih =>
    rw [forget]
    split
    · rw [read?_cons, read?_cons]
      exact congrArg (Option.or · _) (Cache.lookup_filter_ne layer h)
    · rw [read?_cons, read?_cons, ih]

/-- Every program of the source has the property. -/
def Forall (P : Term → Prop) (source : Source) : Prop :=
  ∀ layer ∈ source, ∀ entry ∈ layer, P entry.2

variable {P : Term → Prop} {source : Source}

theorem Forall.read? (h : source.Forall P) {x : String} {program : Term}
    (hread : source.read? x = some program) : P program := by
  obtain ⟨layer, hlayer, hlookup⟩ := List.exists_of_findSome?_eq_some hread
  obtain ⟨before, after, rfl, -⟩ := List.lookup_eq_some_iff.mp hlookup
  exact h _ hlayer (x, program) (by simp)

theorem forall_insert {layer : Layer} (h : ∀ entry ∈ layer, P entry.2) (name : String)
    {program : Term} (hprogram : P program) : ∀ entry ∈ layer.insert name program, P entry.2 := by
  intro entry hentry
  rcases List.mem_cons.mp hentry with rfl | hentry
  · exact hprogram
  · exact h entry (List.mem_filter.mp hentry).1

theorem Forall.replace (h : source.Forall P) (name : String) {program : Term}
    (hprogram : P program) : (replace name program source).Forall P := by
  induction source with
  | nil => exact h
  | cons layer below ih =>
    obtain ⟨hlayer, hbelow⟩ := List.forall_mem_cons.mp h
    unfold Source.replace
    split
    · exact List.forall_mem_cons.mpr ⟨forall_insert hlayer name hprogram, hbelow⟩
    · exact List.forall_mem_cons.mpr ⟨hlayer, ih hbelow⟩

theorem Forall.write (h : source.Forall P) (name : String) {program : Term}
    (hprogram : P program) : (source.write name program).Forall P := by
  unfold Source.write
  split
  · exact h.replace name hprogram
  · cases source with
    | nil =>
      exact List.forall_mem_cons.mpr ⟨forall_insert (by simp) name hprogram, by simp⟩
    | cons layer below =>
      obtain ⟨hlayer, hbelow⟩ := List.forall_mem_cons.mp h
      exact List.forall_mem_cons.mpr ⟨forall_insert hlayer name hprogram, hbelow⟩

theorem Forall.forget (h : source.Forall P) (name : String) : (forget name source).Forall P := by
  induction source with
  | nil => exact h
  | cons layer below ih =>
    obtain ⟨hlayer, hbelow⟩ := List.forall_mem_cons.mp h
    unfold Source.forget
    split
    · refine List.forall_mem_cons.mpr ⟨fun entry hentry ↦ ?_, hbelow⟩
      exact hlayer entry (List.mem_filter.mp hentry).1
    · exact List.forall_mem_cons.mpr ⟨hlayer, ih hbelow⟩

end Source

/-! ### Loaded modules -/

namespace Modules

variable {modules : Modules} {name x : String}

/-- The result of a module that is loaded and up to date. -/
def cached? (modules : Modules) (name : String) : Option (Classified Value) :=
  modules.loaded.getUnlessStale? name

/-- The recorded imports of a module. -/
def importsOf (modules : Modules) (name : String) : List String :=
  (modules.imports.imports? name).getD []

@[simp]
theorem cached?_request : (modules.request name).cached? x = modules.cached? x := by
  unfold request
  split <;> rfl

@[simp]
theorem loading_request : (modules.request name).loading = modules.loading := by
  unfold request
  split <;> rfl

theorem imports?_request_of_getLast? {importer : String}
    (h : modules.loading.getLast? = some importer) :
    (modules.request name).imports = modules.imports.add importer name := by
  rw [request, h]

theorem imports?_request_of_ne (h : modules.loading.getLast? ≠ some x) :
    (modules.request name).imports.imports? x = modules.imports.imports? x := by
  unfold request
  split
  · rename_i importer himporter
    refine ImportGraph.imports?_add_of_ne _ name ?_
    rintro rfl
    exact h himporter
  · rfl

@[simp]
theorem cached?_keep_self (result : Classified Value) :
    (modules.keep name result).cached? name = some result :=
  Cache.getUnlessStale?_insert_self modules.loaded name result

theorem cached?_keep_of_ne (result : Classified Value) (h : x ≠ name) :
    (modules.keep name result).cached? x = modules.cached? x :=
  Cache.getUnlessStale?_insert_of_ne modules.loaded result h

theorem imports?_enter_of_ne (h : x ≠ name) :
    (modules.enter name).imports.imports? x = modules.imports.imports? x :=
  ImportGraph.imports?_erase_of_ne modules.imports h

theorem cycle?_eq_none_iff : modules.cycle? name = none ↔ name ∉ modules.loading := by
  unfold cycle?
  by_cases h : name ∈ modules.loading <;> simp [h]

theorem cycle?_eq_some_iff {cycle : List String} :
    modules.cycle? name = some cycle ↔
      name ∈ modules.loading ∧ modules.loading.dropWhile (· != name) ++ [name] = cycle := by
  unfold cycle?
  by_cases h : name ∈ modules.loading <;> simp [h]

@[simp]
theorem cached?_invalidate :
    (modules.invalidate name).cached? x =
      if x ∈ modules.imports.reverseDependencies name then none else modules.cached? x :=
  Cache.getUnlessStale?_foldl_invalidate _ _ x

/-- What stays loaded imports only what stays loaded. -/
theorem cached?_invalidate_of_imports {v : Classified Value} {i : String}
    (h : (modules.invalidate name).cached? x = some v) (hi : i ∈ modules.importsOf x) :
    (modules.invalidate name).cached? i = modules.cached? i := by
  rw [cached?_invalidate] at h ⊢
  split at h
  · cases h
  · rename_i hx
    rw [if_neg fun hstale ↦ hx (ImportGraph.mem_reverseDependencies_of_imports hi hstale)]

theorem cached?_of_invalidate {v : Classified Value}
    (h : (modules.invalidate name).cached? x = some v) : modules.cached? x = some v ∧ x ≠ name := by
  rw [cached?_invalidate] at h
  split at h
  · cases h
  · rename_i hx
    refine ⟨h, ?_⟩
    rintro rfl
    exact hx (ImportGraph.self_mem_reverseDependencies x)

end Modules

end RankedTT
