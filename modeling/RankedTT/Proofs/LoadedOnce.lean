import RankedTT.Proofs.Requests
import Mathlib.Data.List.Dedup
import Mathlib.Data.List.Perm.Subperm

/-!
Every module is loaded at most once in an execution. A module that was loaded is kept until the
execution ends, and a module that could not be loaded ends it; so a program is read from the source
only for a module that was neither loaded before nor requested successfully since. The modules that
are being loaded are different and were all requested, which bounds how deep imports go, whatever
imports what: the depth that loading is given is never used up.
-/

set_option autoImplicit false
set_option relaxedAutoImplicit false

namespace RankedTT

open Run

namespace Session

/-- The modules that are read from the source to answer the requests, in order. -/
def readNames (t : List Request) : List String := (t.filter Request.reads).map Request.name

@[simp]
theorem readNames_append (t t₁ : List Request) :
    readNames (t ++ t₁) = readNames t ++ readNames t₁ := by
  simp [readNames]

theorem readNames_cons_of_reads {r : Request} (hreads : r.reads = true) (t : List Request) :
    readNames (r :: t) = r.name :: readNames t := by
  simp [readNames, hreads]

theorem readNames_singleton_of_not_reads {r : Request} (hreads : ¬ r.reads = true) :
    readNames [r] = [] := by
  simp [readNames, hreads]

theorem readNames_subset (t : List Request) : readNames t ⊆ t.map Request.name := by
  intro m hm
  obtain ⟨r, hr, rfl⟩ := List.mem_map.mp hm
  exact List.mem_map_of_mem (List.mem_of_mem_filter hr)

/-- The requests read modules once each, and only such as are neither loaded nor being loaded. -/
structure ReadsOnce (s : Progress Modules) (t : List Request) (o : Outcome SessionError Unit)
    (s₁ : Progress Modules) : Prop where
  /-- The reads are those in the journal. -/
  journal : s₁.journal.reads = (readNames t).reverse ++ s.journal.reads
  nodup : (readNames t).Nodup
  new : ∀ m ∈ readNames t, s.host.cached? m = none ∧ m ∉ s.host.loading
  loaded : o = .ok () → ∀ m ∈ readNames t, (s₁.host.cached? m).isSome
  /-- What is being loaded when a request is made was being loaded before, or was read since. -/
  nested : ∀ r ∈ t, r.loading.Nodup ∧ ∀ m ∈ r.loading, m ∈ s.host.loading ∨ m ∈ readNames t

namespace ReadsOnce

variable {s s₁ s₂ : Progress Modules} {t t₁ : List Request} {o : Outcome SessionError Unit}

theorem append (first : ReadsOnce s t (.ok ()) s₁) (rest : ReadsOnce s₁ t₁ o s₂)
    (hgrows : s.host.Grows s₁.host) (hgrows₁ : s₁.host.Grows s₂.host) :
    ReadsOnce s (t ++ t₁) o s₂ where
  journal := by
    rw [rest.journal, first.journal, readNames_append, List.reverse_append, List.append_assoc]
  nodup := by
    rw [readNames_append, List.nodup_append]
    refine ⟨first.nodup, rest.nodup, fun m hm m' hm' ↦ ?_⟩
    rintro rfl
    have hloaded := first.loaded rfl m hm
    rw [(rest.new m hm').1] at hloaded
    cases hloaded
  new m hm := by
    rw [readNames_append, List.mem_append] at hm
    rcases hm with hm | hm
    · exact first.new m hm
    · obtain ⟨hcached, hloading⟩ := rest.new m hm
      refine ⟨Option.eq_none_iff_forall_ne_some.mpr fun v hv ↦ ?_, hgrows.loading ▸ hloading⟩
      rw [hgrows.cached hv] at hcached
      cases hcached
  loaded ho m hm := by
    rw [readNames_append, List.mem_append] at hm
    rcases hm with hm | hm
    · obtain ⟨v, hv⟩ := Option.isSome_iff_exists.mp (first.loaded rfl m hm)
      rw [hgrows₁.cached hv]
      rfl
    · exact rest.loaded ho m hm
  nested r hr := by
    rw [readNames_append]
    rcases List.mem_append.mp hr with hr | hr
    · obtain ⟨hnodup, hmem⟩ := first.nested r hr
      exact ⟨hnodup, fun m hm ↦ (hmem m hm).imp_right (List.mem_append_left _)⟩
    · obtain ⟨hnodup, hmem⟩ := rest.nested r hr
      rw [hgrows.loading] at hmem
      exact ⟨hnodup, fun m hm ↦ (hmem m hm).imp_right (List.mem_append_right _)⟩

/-- A single request that reads nothing. -/
theorem of_not_reads {r : Request} (hs : r.state.host.Tidy) (hreads : ¬ r.reads = true)
    (hjournal : s₁.journal.reads = r.state.journal.reads) : ReadsOnce r.state [r] o s₁ := by
  constructor <;> rw [readNames_singleton_of_not_reads hreads]
  · exact hjournal
  · exact List.nodup_nil
  · exact nofun
  · exact fun _ ↦ nofun
  · intro r' hr
    obtain rfl := List.mem_singleton.mp hr
    exact ⟨hs.nodup, fun m hm ↦ .inl hm⟩

/-- A request that reads the module, and what its program does until `s₁`; at `s₂` the module is
left. -/
theorem of_reads {r : Request} (hs : r.state.host.Tidy) (hreads : r.reads = true)
    (inner : ReadsOnce r.entered t o s₁) (hjournal : s₂.journal = s₁.journal)
    (hself : o = .ok () → (s₂.host.cached? r.name).isSome)
    (hothers : ∀ m, m ≠ r.name → s₂.host.cached? m = s₁.host.cached? m) :
    ReadsOnce r.state (r :: t) o s₂ := by
  have hname : r.name ∉ readNames t := by
    intro hm
    have hloading := (inner.new r.name hm).2
    rw [Request.loading_entered] at hloading
    exact hloading (List.mem_append_right _ (List.mem_singleton_self _))
  constructor <;> rw [readNames_cons_of_reads hreads]
  · rw [hjournal, inner.journal, List.reverse_cons, List.append_assoc]
    rfl
  · exact List.nodup_cons.mpr ⟨hname, inner.nodup⟩
  · intro m hm
    rcases List.mem_cons.mp hm with rfl | hm
    · exact Request.reads_iff.mp hreads
    · obtain ⟨hcached, hloading⟩ := inner.new m hm
      rw [Request.cached?_entered] at hcached
      rw [Request.loading_entered] at hloading
      exact ⟨hcached, fun h ↦ hloading (List.mem_append_left _ h)⟩
  · intro ho m hm
    rcases List.mem_cons.mp hm with rfl | hm
    · exact hself ho
    · rw [hothers m fun h ↦ hname (h ▸ hm)]
      exact inner.loaded ho m hm
  · intro r' hr
    rcases List.mem_cons.mp hr with rfl | hr
    · exact ⟨hs.nodup, fun m hm ↦ .inl hm⟩
    · obtain ⟨hnodup, hmem⟩ := inner.nested r' hr
      refine ⟨hnodup, fun m hm ↦ ?_⟩
      rw [Request.loading_entered] at hmem
      rcases hmem m hm with hm | hm
      · rcases List.mem_append.mp hm with hm | hm
        · exact .inl hm
        · exact .inr (List.mem_cons.mpr (.inl (List.mem_singleton.mp hm)))
      · exact .inr (List.mem_cons_of_mem _ hm)

end ReadsOnce

/-- In the course of an execution, every module is read once at most. -/
theorem Course.readsOnce {s s₁ : Progress Modules} {t : List Request}
    {o : Outcome SessionError Unit} (h : Course s t o s₁) (hs : s.host.Tidy) :
    ReadsOnce s t o s₁ := by
  induction h with
  | quiet _ reads => exact ⟨reads, List.nodup_nil, nofun, fun _ ↦ nofun, nofun⟩
  | append first rest ihfirst ihrest =>
    obtain ⟨hs₁, hgrows⟩ := first.keeps hs
    exact (ihfirst hs).append (ihrest hs₁) hgrows (rest.keeps hs₁).2
  | found hcached =>
    refine .of_not_reads hs (fun hreads ↦ ?_) rfl
    rw [(Request.reads_iff.mp hreads).1] at hcached
    cases hcached
  | cyclic _ hcycle =>
    refine .of_not_reads hs (fun hreads ↦ ?_) rfl
    rw [(Request.reads_iff_recorded.mp hreads).2] at hcycle
    cases hcycle
  | @missing r reads =>
    have hnothing : ReadsOnce r.entered [] (.error (.error (.moduleNotFound r.name))) r.entered :=
      ⟨rfl, List.nodup_nil, nofun, nofun, nofun⟩
    exact .of_reads hs reads hnothing rfl nofun fun _ _ ↦ rfl
  | stops reads inner ih =>
    exact .of_reads hs reads (ih (tidy_entered hs reads)) rfl nofun fun _ _ ↦ rfl
  | loads reads inner result ih =>
    refine .of_reads hs reads (ih (tidy_entered hs reads)) rfl (fun _ ↦ ?_) fun m hm ↦ ?_
    · dsimp only
      rw [Modules.cached?_keep_self]
      rfl
    · exact Modules.cached?_keep_of_ne result hm

/-! ### How deep imports go -/

section Depth

variable {fuel : Nat} {session : Session}

/-- A program runs in the same way if its requests are answered in the same way. -/
theorem start_run_eq {I : Modules → Prop} {load load' : String → Load (Classified Value)}
    (hload : ∀ name s, I s.host →
      (load name).start s = (load' name).start s ∧ I ((load name).start s).2.host)
    (program : Term) {s : Progress Modules} (hs : I s.host) :
    (run fuel session load program).start s = (run fuel session load' program).start s := by
  have hsteps : Check.SameSteps ⟨fuel, load⟩ ⟨fuel, load'⟩
      (checkProgram ⟨fuel, load⟩ session.checkerEnv program)
      (checkProgram ⟨fuel, load'⟩ session.checkerEnv program) :=
    checkProgram_sameSteps (by rfl) _ _
  rw [run_eq, run_eq, start_bind, start_bind, start_mapError, start_mapError,
    (hsteps.start_eq hload s hs).1]

theorem mem_source_of_read? {source : Source} {name : String} {program : Term}
    (h : source.read? name = some program) : name ∈ source.flatten.map Prod.fst := by
  obtain ⟨layer, hlayer, hlookup⟩ := List.exists_of_findSome?_eq_some h
  obtain ⟨before, after, rfl, -⟩ := List.lookup_eq_some_iff.mp hlookup
  exact List.mem_map.mpr ⟨(name, program), List.mem_flatten.mpr ⟨_, hlayer, by simp⟩, rfl⟩

/-- Different programs of the source are being loaded, so there are no more than the source has. -/
theorem length_loading_le {s : Modules} (hs : s.Tidy)
    (hsource : s.loading ⊆ session.source.flatten.map Prod.fst) :
    s.loading.length ≤ session.source.size := by
  have hle := (List.subperm_of_subset hs.nodup hsource).length_le
  rwa [List.length_map] at hle

/-- A request is answered in the same way if the program of the module runs in the same way. -/
theorem start_request_eq {depth depth' : Nat} {r : Request}
    (h : r.reads = true → ∀ program, session.source.read? r.name = some program →
      (run fuel session (loadModule fuel session depth) program).start r.entered =
        (run fuel session (loadModule fuel session depth') program).start r.entered) :
    (loadModule fuel session (depth + 1) r.name).start r.state =
      (loadModule fuel session (depth' + 1) r.name).start r.state := by
  rw [start_request, start_request]
  cases hcached : r.recorded.host.cached? r.name with
  | some result => rfl
  | none =>
    cases hcycle : r.recorded.host.cycle? r.name with
    | some cycle => rfl
    | none =>
      cases hread : session.source.read? r.name with
      | none => rfl
      | some program =>
        have hreads : r.reads = true := r.reads_iff_recorded.mpr ⟨hcached, hcycle⟩
        dsimp only
        rw [h hreads program hread]

/-- As long as the depth is not used up, it does not matter how much is left. -/
theorem start_loadModule_eq {depth depth' : Nat} {r : Request} (hs : r.state.host.Tidy)
    (hsource : r.loading ⊆ session.source.flatten.map Prod.fst)
    (hdepth : session.source.size < depth + r.loading.length)
    (hdepth' : session.source.size < depth' + r.loading.length) :
    (loadModule fuel session depth r.name).start r.state =
      (loadModule fuel session depth' r.name).start r.state := by
  have hle : r.loading.length ≤ session.source.size := length_loading_le hs hsource
  induction depth generalizing depth' r with
  | zero => omega
  | succ depth ih =>
    cases depth' with
    | zero => omega
    | succ depth' =>
      refine start_request_eq fun hreads program hread ↦ ?_
      have hentered : r.entered.host.Tidy ∧ r.entered.host.loading = r.loading ++ [r.name] :=
        ⟨tidy_entered hs hreads, Request.loading_entered⟩
      refine start_run_eq (I := fun s ↦ s.Tidy ∧ s.loading = r.loading ++ [r.name])
        (fun name s ⟨htidy, hloading⟩ ↦ ?_) program hentered
      obtain ⟨hend, hgrows⟩ := keeps_loadModule fuel session depth name htidy
      refine ⟨?_, hend, hgrows.loading.trans hloading⟩
      have hinner : s.host.loading ⊆ session.source.flatten.map Prod.fst := by
        rw [hloading]
        exact List.append_subset.mpr
          ⟨hsource, List.cons_subset.mpr ⟨mem_source_of_read? hread, List.nil_subset _⟩⟩
      have hlength : (Request.mk name s).loading.length = r.loading.length + 1 := by
        rw [Request.loading, hloading, List.length_append, List.length_singleton]
      exact @ih depth' ⟨name, s⟩ htidy hinner (by omega) (by omega) (length_loading_le htidy hinner)

/-- While nothing is being loaded, the depth of the session is enough. -/
theorem start_run_of_loadDepth_le {s : Progress Modules} (hs : s.host.Tidy)
    (hidle : s.host.loading = []) (program : Term) {depth : Nat}
    (hdepth : session.loadDepth ≤ depth) :
    (run fuel session (loadModule fuel session depth) program).start s =
      (session.runTerm fuel program).start s := by
  refine start_run_eq (I := fun s₁ ↦ s₁.Tidy ∧ s₁.loading = [])
    (fun name s₁ ⟨htidy, hloading⟩ ↦ ?_) program ⟨hs, hidle⟩
  obtain ⟨hend, hgrows⟩ := keeps_loadModule fuel session depth name htidy
  refine ⟨?_, hend, hgrows.loading.trans hloading⟩
  have hsize : session.source.size < session.loadDepth := Nat.lt_succ_self _
  have hempty : (Request.mk name s₁).loading = [] := hloading
  refine start_loadModule_eq (r := ⟨name, s₁⟩) htidy ?_ ?_ ?_ <;> rw [hempty]
  · exact List.nil_subset _
  · exact Nat.lt_of_lt_of_le hsize hdepth
  · exact hsize

end Depth

/-- In every session between calls: the modules that an execution reads from the source, as the
journal shows, are different, and none of them was loaded before. So there are at most as many as
modules that are requested; nor do loads go deeper, and no depth beyond that of the session changes
the execution. -/
theorem loadedOnce_of_reachable {s : Progress Session} (hs : Reachable s) (fuel : Nat)
    (program : Term) :
    let t := allRequests fuel program s
    let names := (t.map Request.name).dedup
    ((execute fuel program).start s).2.journal.reads = (readNames t).reverse ++ s.journal.reads ∧
      (readNames t).Nodup ∧
      (∀ m ∈ readNames t, s.host.isLoaded m = false) ∧
      (readNames t).length ≤ names.length ∧
      (∀ r ∈ t, r.reads = true → (r.loading ++ [r.name]).length ≤ names.length) ∧
      ∀ depth, s.host.loadDepth ≤ depth →
        (run fuel s.host (loadModule fuel s.host depth) program).start
          ⟨s.host.modules, s.journal⟩ = ran fuel program s := by
  intro t names
  have hidle : s.host.modules.loading = [] := hs.orderly.idle
  have htidy : s.host.modules.Tidy := sound_anyResults hidle fuel
  obtain ⟨hjournal, hnodup, hnew, -, hnested⟩ := (course_ran fuel program s).readsOnce htidy
  have hbound {xs : List String} (hxs : xs.Nodup) (hsub : xs ⊆ t.map Request.name) :
      xs.length ≤ names.length :=
    (List.subperm_of_subset hxs fun x hx ↦ List.mem_dedup.mpr (hsub hx)).length_le
  refine ⟨?_, hnodup, fun m hm ↦ ?_, hbound hnodup (readNames_subset t), fun r hr hreads ↦ ?_,
    fun depth hdepth ↦ ?_⟩
  · rw [start_execute]
    exact hjournal
  · rw [← Bool.not_eq_true, isLoaded_iff]
    rintro ⟨v, hv⟩
    exact absurd ((hnew m hm).1.symm.trans hv) nofun
  · obtain ⟨hloading, hmem⟩ := hnested r hr
    have hstack : (r.loading ++ [r.name]).Nodup := by
      rw [← List.concat_eq_append]
      exact hloading.concat (Request.reads_iff.mp hreads).2
    refine hbound hstack (List.append_subset.mpr ⟨fun m hm ↦ ?_, ?_⟩)
    · -- nothing was being loaded before
      refine readNames_subset t ((hmem m hm).resolve_left ?_)
      rw [hidle]
      exact List.not_mem_nil
    · exact List.cons_subset.mpr ⟨List.mem_map_of_mem hr, List.nil_subset _⟩
  · exact start_run_of_loadDepth_le htidy hidle program hdepth

/-- Two modules import a third one. -/
def diamond : Progress Session :=
  ⟨{ withPrelude with source := [[("left", .importing "base"), ("right", .importing "base"),
    ("base", Prelude.int 1)]] }, .empty⟩

theorem loadedOnce_of_reachable_diamond :
    let program : Term :=
      .letIn "x" (.importing "left") (.letIn "y" (.importing "right") (.importing "left"))
    let t := allRequests 50 program diamond
    Reachable diamond ∧ t.map Request.name = ["left", "base", "right", "base", "left"] ∧
      readNames t = ["left", "base", "right"] ∧
      ((execute 50 program).start diamond).2.journal.reads = ["right", "base", "left"] ∧
      (readNames t).Nodup := by
  intro program t
  have hs : Reachable diamond := .withSource _ (.withPrelude _)
  have hrequests : t.map Request.name = ["left", "base", "right", "base", "left"] := by
    decide +kernel
  have hreads : readNames t = ["left", "base", "right"] := by decide +kernel
  obtain ⟨hjournal, hnodup, -⟩ := loadedOnce_of_reachable hs 50 program
  refine ⟨hs, hrequests, hreads, ?_, hnodup⟩
  rw [hjournal, hreads]
  rfl

end Session

end RankedTT
