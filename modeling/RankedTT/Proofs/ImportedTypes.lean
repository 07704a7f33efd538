import RankedTT.Proofs.EqualPrograms
import RankedTT.Proofs.UpToDate

/-!
Imported types. What is kept for a loaded module is the normalized classification that its program
got in the session that loaded it, with the value of the program in place of its normal form. A type
has no value, so that its normal form is lost: an import of a type is the absent value as a
constant, and definitional equality can tell two of them apart by their ranks and their own types
only. A definition keeps the normal form of a type.
-/

set_option autoImplicit false
set_option relaxedAutoImplicit false

namespace RankedTT

open Run

/-- Judgements are equal if they have the same rank, equal types and equal terms. -/
theorem Classified.isEqualTo_eq_true_iff {fuel : Nat} {env : NormEnv} {lhs rhs : Classified Core} :
    Classified.isEqualTo fuel env lhs rhs = .ok true ↔ lhs.rank = rhs.rank ∧
      (∃ n n', lhs.type.normalForm fuel env = .ok n ∧ rhs.type.normalForm fuel env = .ok n' ∧
        n.alphaEq n' = true) ∧
      ∃ n n', lhs.term.normalForm fuel env = .ok n ∧ rhs.term.normalForm fuel env = .ok n' ∧
        n.alphaEq n' = true := by
  constructor
  · intro h
    unfold Classified.isEqualTo at h
    by_cases hrank : lhs.rank = rhs.rank
    · rw [if_neg (by simpa using hrank)] at h
      obtain ⟨n, hn, h⟩ := outcome_bind_eq_ok_iff.mp h
      obtain ⟨n', hn', h⟩ := outcome_bind_eq_ok_iff.mp h
      by_cases halpha : n.alphaEq n' = true
      · rw [if_neg (by simpa using halpha)] at h
        obtain ⟨m, hm, h⟩ := outcome_bind_eq_ok_iff.mp h
        obtain ⟨m', hm', h⟩ := outcome_bind_eq_ok_iff.mp h
        injection h with h
        exact ⟨hrank, ⟨n, n', hn, hn', halpha⟩, m, m', hm, hm', h⟩
      · rw [if_pos (by simpa using halpha)] at h
        cases h
    · rw [if_pos (by simpa using hrank)] at h
      cases h
  · rintro ⟨hrank, ⟨n, n', hn, hn', htypes⟩, m, m', hm, hm', hterms⟩
    unfold Classified.isEqualTo
    rw [if_neg (by simpa using hrank)]
    refine outcome_bind_eq_ok_iff.mpr ⟨n, hn, outcome_bind_eq_ok_iff.mpr ⟨n', hn', ?_⟩⟩
    rw [if_neg (by simpa using htypes)]
    refine outcome_bind_eq_ok_iff.mpr ⟨m, hm, outcome_bind_eq_ok_iff.mpr ⟨m', hm', ?_⟩⟩
    exact congrArg Except.ok hterms

/-- With the same constant for terms, only ranks and types are left to compare. -/
theorem Classified.isEqualTo_constant_iff {fuel : Nat} {env : NormEnv} {lhs rhs : Classified Core} :
    Classified.isEqualTo fuel env (lhs.withTerm (.const .absent))
        (rhs.withTerm (.const .absent)) = .ok true ↔
      Classified.isEqualTo fuel env lhs.typeOf rhs.typeOf = .ok true := by
  rw [isEqualTo_eq_true_iff, isEqualTo_eq_true_iff]
  cases fuel with
  | zero =>
    constructor
    all_goals
      rintro ⟨-, ⟨_, _, h, -⟩, -⟩
      cases h
  | succ fuel =>
    constructor
    · rintro ⟨hrank, htypes, -⟩
      exact ⟨congrArg Nat.succ hrank, ⟨_, _, rfl, rfl, beq_iff_eq.mpr hrank⟩, htypes⟩
    · rintro ⟨hrank, -, htypes⟩
      exact ⟨Nat.succ.inj hrank, htypes, _, _, rfl, rfl, rfl⟩

theorem Classified.isEqualTo_typeOf {fuel : Nat} {env : NormEnv} {lhs rhs : Classified Core}
    (h : Classified.isEqualTo fuel env lhs rhs = .ok true) :
    Classified.isEqualTo fuel env lhs.typeOf rhs.typeOf = .ok true := by
  rw [isEqualTo_eq_true_iff] at h ⊢
  obtain ⟨hrank, htypes, -⟩ := h
  refine ⟨congrArg Nat.succ hrank, ?_, htypes⟩
  cases fuel with
  | zero =>
    obtain ⟨_, _, h, -⟩ := htypes
    cases h
  | succ fuel => exact ⟨_, _, rfl, rfl, beq_iff_eq.mpr hrank⟩

namespace Session

/-! ### Where the results of modules come from -/

/-- The session has a program for the module, and executing it gave this classification, in normal
form, and this value. -/
def Gave (session : Session) (m : String) (program : Term) (normalized : Classified Core)
    (value : Value) : Prop :=
  session.source.read? m = some program ∧ ∃ fuel after elaborated,
    session.Executed fuel (some m) program after elaborated normalized value

theorem Gave.absent {session : Session} {m : String} {program : Term}
    {normalized : Classified Core} {value : Value} (h : session.Gave m program normalized value)
    (hrank : normalized.rank ≠ 0) : value = .absent := by
  obtain ⟨-, fuel, after, elaborated, hexecuted⟩ := h
  obtain ⟨_, _, hnormalizes⟩ := hexecuted.normalizes
  obtain ⟨_, _, rfl, -, -⟩ := Check.normalized_computed elaborated _ _ _ hnormalizes
  exact hexecuted.absent hrank

/-- What was not loaded before has been executed in the session itself. -/
def executions (fuel : Nat) (session : Session) : Upkeep fuel session where
  Ok _ m v := session.modules.cached? m = none → ∃ program normalized value,
    session.Gave m program normalized value ∧ v = normalized.withTerm value
  Blames _ := True
  Fine _ := True
  source _ := trivial
  stable _ _ _ h := h
  loads {_ program s elaborated normalized value} hread _ _ hexecuted _ :=
    ⟨program, normalized, value, ⟨hread, fuel, s, elaborated, hexecuted⟩, rfl⟩
  rejected _ := trivial
  cyclic _ _ := trivial
  missing _ := trivial
  runtime _ _ _ _ _ := trivial

/-- The result was given to the module by its present program, in a session on the way. -/
def Stems (start : Progress Session) (calls : List Call) (m : String) (v : Classified Value) :
    Prop :=
  ∃ before program normalized value, before <+: calls ∧
    (after start calls).host.source.read? m = some program ∧
    (after start before).host.Gave m program normalized value ∧ v = normalized.withTerm value

section Histories

variable {start : Progress Session} (hstart : start.host.modules = .empty)

theorem sound_executions {session : Session} (hidle : session.modules.loading = []) (fuel : Nat) :
    session.modules.Sound (executions fuel session).Ok where
  nodup := hidle ▸ List.nodup_nil
  unloaded hx := by
    rw [hidle] at hx
    cases hx
  ok hv hnone := by
    rw [hv] at hnone
    cases hnone

/-- From the state after some calls, through the loading of modules. -/
theorem stems_of_grows {calls : List Call}
    (ih : ∀ {m v}, (after start calls).host.modules.cached? m = some v → Stems start calls m v)
    {fuel : Nat} {later : Modules}
    (hsound : later.Sound (executions fuel (after start calls).host).Ok)
    (hgrows : (after start calls).host.modules.Grows later) {m : String} {v : Classified Value}
    (hv : later.cached? m = some v) : Stems start calls m v := by
  cases hbefore : (after start calls).host.modules.cached? m with
  | some w =>
    obtain rfl : v = w := Option.some.inj (hv.symm.trans (hgrows.cached hbefore))
    exact ih hbefore
  | none =>
    obtain ⟨program, normalized, value, hgave, rfl⟩ := hsound.ok hv hbefore
    exact ⟨calls, program, normalized, value, List.prefix_rfl, hgave.1, hgave, rfl⟩

/-- A call that leaves the program of a module alone. -/
theorem Stems.append {calls : List Call} {m : String} {v : Classified Value}
    (h : Stems start calls m v) (call : Call)
    (hsource : (after start (calls ++ [call])).host.source.read? m =
      (after start calls).host.source.read? m) : Stems start (calls ++ [call]) m v := by
  obtain ⟨before, program, normalized, value, hbefore, hread, hgave, rfl⟩ := h
  refine ⟨before, program, normalized, value, ?_, hsource.trans hread, hgave, rfl⟩
  exact hbefore.trans (List.prefix_append calls [call])

include hstart

theorem stems_after (calls : List Call) {m : String} {v : Classified Value}
    (hv : (after start calls).host.modules.cached? m = some v) : Stems start calls m v := by
  induction calls using List.reverseRecOn generalizing m v with
  | nil =>
    change start.host.modules.cached? m = some v at hv
    rw [hstart] at hv
    cases hv
  | append_singleton calls call ih =>
    have hidle := (upToDate_after hstart calls).1
    have hran (fuel : Nat) (program : Term)
        (hv : (withLoaded fuel program (after start calls)).modules.cached? m = some v) :
        Stems start calls m v := by
      obtain ⟨hsound, hgrows⟩ := (executions fuel _).ran_keeps (sound_executions hidle fuel) program
      exact stems_of_grows ih hsound hgrows hv
    have hchanges := changes_step (after start calls) call
    rw [← after_append_singleton] at hchanges
    generalize hlater : (after start (calls ++ [call])).host = later at hchanges hv
    cases hchanges with
    | executed fuel program => exact (hran fuel program hv).append _ (by rw [hlater]; rfl)
    | refused => exact (ih hv).append _ (by rw [hlater])
    | failed fuel _ type? program =>
      exact (hran fuel (annotated type? program) hv).append _ (by rw [hlater]; rfl)
    | @defined fuel _ type? program =>
      exact (hran fuel (annotated type? program) hv).append _ (by rw [hlater]; rfl)
    | updated name program =>
      obtain ⟨hv, hne⟩ := Modules.cached?_of_invalidate hv
      refine (ih hv).append _ ?_
      rw [hlater]
      exact Source.read?_write_of_ne _ _ hne
    | forgotten name =>
      obtain ⟨hv, hne⟩ := Modules.cached?_of_invalidate hv
      refine (ih hv).append _ ?_
      rw [hlater]
      exact Source.read?_forget_of_ne _ hne

/-- An import is classified by the result of the module. -/
theorem stems_of_checked {calls : List Call} {fuel : Nat} {m : String} {c : Classified Core}
    (h : checked fuel (.importing m) (after start calls) = .ok c) :
    ∃ v, c = v.map .const ∧ Stems start calls m v := by
  obtain ⟨s₁, h⟩ := outcome_eq_ok_iff.mp h
  simp only [checkProgram, Term.infer, Term.judged, Term.rule, importRule, inferredRule,
    Judged.logged, returns_bind_iff, returns_mapError_iff, returns_pure_iff] at h
  obtain ⟨_, _, ⟨v, s₂, hv, rfl, rfl⟩, -, -, -, rfl, -⟩ := h
  refine ⟨v, rfl, ?_⟩
  have hloaded :=
    Upkeep.loads_loadModule (U := executions fuel (after start calls).host)
      (after start calls).host.loadDepth m
      ⟨(after start calls).host.modules, (after start calls).journal⟩
      (sound_executions (upToDate_after hstart calls).1 fuel)
  unfold Returns at hv
  rw [hv] at hloaded
  exact stems_of_grows (stems_after hstart calls) hloaded.sound hloaded.grows
    (hloaded.returns v rfl).1

/-- An import of a type has the rank and the type that the program of the module has, in normal
form, and the absent value for a term. -/
theorem importedType_of_checked {calls : List Call} {fuel : Nat} {m : String} {c : Classified Core}
    (h : checked fuel (.importing m) (after start calls) = .ok c) (hrank : c.rank ≠ 0) :
    ∃ before program normalized, before <+: calls ∧
      (after start calls).host.source.read? m = some program ∧
      (after start before).host.Gave m program normalized .absent ∧
      c = normalized.withTerm (.const .absent) := by
  obtain ⟨v, rfl, before, program, normalized, value, hbefore, hread, hgave, rfl⟩ :=
    stems_of_checked hstart h
  obtain rfl : value = .absent := hgave.absent hrank
  exact ⟨before, program, normalized, hbefore, hread, hgave, rfl⟩

/-- Definitional equality of imported types is equality of their ranks and types. In every session,
imports of types are equal if and only if the types are that the programs of the modules have, in
normal form; so equal programs have equal imports, and what distinguishes programs of the same type
is lost. The second import may be looked at after more calls. -/
theorem importedTypes_isEqualTo_iff (calls more : List Call) {fuel : Nat} {a b : String}
    {ca cb : Classified Core}
    (ha : checked fuel (.importing a) (after start calls) = .ok ca) (hranka : ca.rank ≠ 0)
    (hb : checked fuel (.importing b) (after start (calls ++ more)) = .ok cb)
    (hrankb : cb.rank ≠ 0) :
    ∃ before before' pa pb na nb, before <+: calls ∧ before' <+: calls ++ more ∧
      (after start calls).host.source.read? a = some pa ∧
      (after start (calls ++ more)).host.source.read? b = some pb ∧
      (after start before).host.Gave a pa na .absent ∧
      (after start before').host.Gave b pb nb .absent ∧
      ∀ env, (Classified.isEqualTo fuel env ca cb = .ok true ↔
          Classified.isEqualTo fuel env na.typeOf nb.typeOf = .ok true) ∧
        (Classified.isEqualTo fuel env na nb = .ok true →
          Classified.isEqualTo fuel env ca cb = .ok true) := by
  obtain ⟨before, pa, na, hbefore, hreada, hgavea, rfl⟩ := importedType_of_checked hstart ha hranka
  obtain ⟨before', pb, nb, hbefore', hreadb, hgaveb, rfl⟩ :=
    importedType_of_checked hstart hb hrankb
  refine ⟨before, before', pa, pb, na, nb, hbefore, hbefore', hreada, hreadb, hgavea, hgaveb,
    fun env ↦ ⟨Classified.isEqualTo_constant_iff, fun h ↦ ?_⟩⟩
  exact Classified.isEqualTo_constant_iff.mpr (Classified.isEqualTo_typeOf h)

end Histories

/-! ### Two imported types -/

/-- A session with a module for each type of the prelude. -/
def importedTypes : Progress Session :=
  ⟨{ withPrelude with source := [[("a", .var "int"), ("b", .var "string")]] }, .empty⟩

/-- The imports are compared after one of the modules has been loaded. -/
theorem importedTypes_isEqualTo_iff_int_string :
    ∃ (ca cb na nb : Classified Core) (before : List Call),
      checked 50 (.importing "a") importedTypes = .ok ca ∧ ca.rank ≠ 0 ∧
      checked 50 (.importing "b") (after importedTypes [.execute 50 (.importing "a")]) = .ok cb ∧
      cb.rank ≠ 0 ∧ importedTypes.host.Gave "a" (.var "int") na .absent ∧
      (after importedTypes before).host.Gave "b" (.var "string") nb .absent ∧
      (Classified.isEqualTo 50 (Ctx.mk importedTypes.host.checkerEnv).values ca cb = .ok true ↔
        Classified.isEqualTo 50 (Ctx.mk importedTypes.host.checkerEnv).values na.typeOf nb.typeOf =
          .ok true) := by
  obtain ⟨ca, hca, hranka⟩ := exists_eq_ok_of_any (p := fun c ↦ c.rank == 1)
    (o := checked 50 (.importing "a") importedTypes) (by decide +kernel)
  obtain ⟨cb, hcb, hrankb⟩ := exists_eq_ok_of_any (p := fun c ↦ c.rank == 1)
    (o := checked 50 (.importing "b") (after importedTypes [.execute 50 (.importing "a")]))
    (by decide +kernel)
  have hranka : ca.rank ≠ 0 := by simp_all
  have hrankb : cb.rank ≠ 0 := by simp_all
  obtain ⟨before, before', pa, pb, na, nb, hbefore, -, hreada, hreadb, hgavea, hgaveb, hiff⟩ :=
    importedTypes_isEqualTo_iff (show importedTypes.host.modules = .empty from rfl) []
      [.execute 50 (.importing "a")] hca hranka hcb hrankb
  obtain rfl : before = [] := List.prefix_nil.mp hbefore
  obtain rfl : Term.var "int" = pa := Option.some.inj hreada
  obtain rfl : Term.var "string" = pb := Option.some.inj hreadb
  exact ⟨ca, cb, na, nb, before', hca, hranka, hcb, hrankb, hgavea, hgaveb, (hiff _).1⟩

/-- The types are different, and their imports are equal. -/
theorem isEqualTo_importedTypes :
    ∃ ca cb pa pb, checked 50 (.importing "a") importedTypes = .ok ca ∧
      checked 50 (.importing "b") importedTypes = .ok cb ∧
      checked 50 (.var "int") importedTypes = .ok pa ∧ pa.rank = 1 ∧
      checked 50 (.var "string") importedTypes = .ok pb ∧ pb.rank = 1 ∧
      Classified.isEqualTo 50 (Ctx.mk importedTypes.host.checkerEnv).values ca cb = .ok true ∧
      Classified.isEqualTo 50 (Ctx.mk importedTypes.host.checkerEnv).values pa pb = .ok false := by
  have htest : ((checked 50 (.importing "a") importedTypes).toOption.any fun ca ↦
      (checked 50 (.importing "b") importedTypes).toOption.any fun cb ↦
        (Classified.isEqualTo 50 (Ctx.mk importedTypes.host.checkerEnv).values ca cb).toOption.any
          id) = true := by
    decide +kernel
  obtain ⟨ca, hca, htest⟩ := exists_eq_ok_of_any htest
  obtain ⟨cb, hcb, htest⟩ := exists_eq_ok_of_any htest
  obtain ⟨_, hequal, rfl⟩ := exists_eq_ok_of_any htest
  exact ⟨ca, cb, ⟨1, .univ 0, .var "int"⟩, ⟨1, .univ 0, .var "string"⟩, hca, hcb, by cbv, rfl,
    by cbv, rfl, hequal, rfl⟩

end Session

end RankedTT
