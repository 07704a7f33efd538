import RankedTT.Proofs.ClosedValues
import RankedTT.Proofs.Derivation
import RankedTT.Proofs.History

/-!
No program of a session meets an unbound name at run time. The typing rules and the evaluator see
the same names; what the typing rules return is in scope and has closed constants, so it evaluates
to closed values, and these are all that a session ever binds or keeps for a loaded module.
-/

set_option autoImplicit false
set_option relaxedAutoImplicit false

namespace RankedTT

open Run

/-! ### Programs -/

/-- No identifier is anonymous, and constants are literals. -/
def Mention.IsPlain : Mention → Prop
  | .identifier name => name ≠ anonymous
  | .constant content => content.IsLiteral
  | .imported _ => True

def Term.IsPlain (program : Term) : Prop := ∀ m ∈ program.mentions, m.IsPlain

theorem Ctx.Scopes.of_alike {ctx : Ctx} {t t' : Core} {S : Value → Prop} (h : ctx.Scopes t')
    (halike : t.Alike S t') : ctx.Scopes t where
  bound x hx := h.bound x (halike.occursFree_eq x ▸ hx)
  named := halike.names_eq ▸ h.named

/-! ### The prelude -/

theorem Prelude.mem_env {name : String} {judgement : Classified Value}
    (h : (name, judgement) ∈ Prelude.env) :
    (judgement = baseType ∧ (name = "int" ∨ name = "string")) ∨
      ∃ op, judgement = operation op := by
  have hmem : (name, judgement) ∈ Prelude.bindings := by
    simpa [Prelude.env, Env.pushAll, Env.push, Env.empty] using h
  simp only [Prelude.bindings, List.mem_append, List.mem_flatMap, List.mem_cons, Prod.mk.injEq,
    List.not_mem_nil, or_false] at hmem
  rcases hmem with (⟨hname, rfl⟩ | ⟨hname, rfl⟩) | ⟨op, -, ⟨-, rfl⟩ | ⟨-, rfl⟩⟩
  · exact .inl ⟨rfl, .inl hname⟩
  · exact .inl ⟨rfl, .inr hname⟩
  · exact .inr ⟨op, rfl⟩
  · exact .inr ⟨op, rfl⟩

theorem Prelude.closed_checkerEnv : (Ctx.mk Prelude.checkerEnv).Closed := by
  intro name judgement hmem
  have hscopes : ∀ entry ∈ Prelude.checkerEnv, ∀ t ∈ [entry.2.type, entry.2.term],
      (∀ x ∈ t.freeNames, (Ctx.mk Prelude.checkerEnv).maps x = true) ∧
        (.reference, anonymous) ∉ t.names := by
    decide +kernel
  have hentry := hscopes _ hmem
  exact ⟨Ctx.scopes_iff.mpr (hentry _ (by simp)), fun _ ↦ Ctx.scopes_iff.mpr (hentry _ (by simp))⟩

/-! ### Sessions -/

namespace Session

variable {fuel : Nat} {session : Session}

/-- What is known of the result of a module, where the typing rules see the names of `ctx`. -/
structure Admits (ctx : Ctx) (result : Classified Value) : Prop where
  scope : ctx.Scopes result.type
  constants : ∀ v ∈ result.type.constants, v.Closed
  value : result.term.Closed

/-- The typing rules and the evaluator see the same names, everything that is bound is in scope, and
all values are closed. -/
structure InScope (session : Session) : Prop where
  names : ∀ x, session.checkerEnv.maps x = true → session.env.maps x = true
  prelude : ∀ x, Prelude.env.maps x = true → session.checkerEnv.maps x = true
  context : (Ctx.mk session.checkerEnv).Closed
  constants : alike Value.Closed session.checkerEnv session.checkerEnv
  values : session.runtimeEnv.Closed
  source : session.source.Forall Term.IsPlain
  loaded : ∀ {m v}, session.modules.cached? m = some v → Admits ⟨session.checkerEnv⟩ v
  idle : session.modules.loading = []

/-! ### Elaboration -/

/-- Nothing is compared, but all constants are closed. -/
def closedConstants : Mirror Modules Modules SessionError where
  hosts := ⟨fun _ _ ↦ True, fun _ ↦ True⟩
  constants := Value.Closed
  causes _ := True
  unconstrained _ h := absurd trivial h

theorem Admits.alike_self {ctx : Ctx} {result : Classified Value} (h : Admits ctx result) :
    alike Value.Closed result result :=
  ⟨rfl, result.type.alike_self h.constants, rfl, h.value⟩

theorem answer_mirrored {ctx : Ctx} {table : String → Option (Classified Value)}
    (htable : ∀ i v, table i = some v → Admits ctx v) :
    Host.Mirrored closedConstants ⟨fuel, answer table⟩ ⟨fuel, answer table⟩ := by
  refine ⟨rfl, fun filename ↦ ?_⟩
  refine Follows.bind (R := Eq) (fun _ h ↦ absurd trivial h)
    (.modifyGet (fun _ _ ↦ trivial) fun _ _ _ ↦ ⟨trivial, rfl⟩) fun _ _ _ ↦ ?_
  exact .ofOption trivial fun v hv ↦ ⟨v, hv, (htable filename v hv).alike_self⟩

section Elaboration

variable (hsession : session.InScope)

include hsession

theorem InScope.scopes_literal {content : Classified Value} (h : content.IsLiteral) :
    (Ctx.mk session.checkerEnv).Scopes content.type := by
  cases h with
  | int n => exact Ctx.scopes_var_iff.mpr ⟨hsession.prelude "int" rfl, by decide⟩
  | string s => exact Ctx.scopes_var_iff.mpr ⟨hsession.prelude "string" rfl, by decide⟩

omit hsession in
theorem known_of_isPlain {host host' : Host Modules SessionError}
    (hhost : host.Mirrored closedConstants host') {m : Mention} (h : m.IsPlain) :
    m.Known closedConstants host host' := by
  cases m with
  | identifier _ => trivial
  | constant content =>
    cases h with
    | int n => exact ⟨rfl, .var _, rfl, .int n⟩
    | string s => exact ⟨rfl, .var _, rfl, .str s⟩
  | imported filename => exact hhost.resolve filename

theorem InScope.scoped_of_isPlain {table : String → Option (Classified Value)}
    (htable : ∀ i v, table i = some v → Admits ⟨session.checkerEnv⟩ v) {m : Mention}
    (h : m.IsPlain) :
    m.Scoped (Host.mk fuel (answer table)) (Ctx.mk session.checkerEnv) := by
  cases m with
  | identifier name => exact h
  | constant content => exact hsession.scopes_literal h
  | imported filename =>
    exact .bind_any fun _ ↦ .ofOption fun v hv ↦ (htable filename v hv).scope

/-- What a plain program is elaborated to is in scope, and its constants are closed. -/
theorem InScope.elaborates {program : Term} (hprogram : program.IsPlain) {s : Modules}
    (hs : ∀ i v, s.cached? i = some v → Admits ⟨session.checkerEnv⟩ v) {importer : Option String}
    {elaborated : Classified Core} (h : session.Elaborates fuel importer program s elaborated) :
    Check.Scoped ⟨session.checkerEnv⟩ elaborated ∧ alike Value.Closed elaborated elaborated := by
  obtain ⟨found, s₁, hfound, ⟨-, htype, hterm⟩, -⟩ := h s.cached? (fun _ _ _ h ↦ h) default
  have hrule := program.rule_wellScoped ⟨fuel, answer s.cached?⟩ ⟨session.checkerEnv⟩
    fun m hm ↦ hsession.scoped_of_isPlain hs (hprogram m hm)
  have hscoped : Check.Scoped ⟨session.checkerEnv⟩ found :=
    hrule.logged.infer _ hsession.context.scopesNames (.refl _) _ _ _ hfound
  have hmirrors : closedConstants.Mirrors
      (checkProgram ⟨fuel, answer s.cached?⟩ session.checkerEnv program)
      (checkProgram ⟨fuel, answer s.cached?⟩ session.checkerEnv program) :=
    checkProgram_mirrors rfl hsession.constants
      fun m hm ↦ known_of_isPlain (answer_mirrored hs) (hprogram m hm)
  obtain ⟨_, _, -, -, -, htype', hterm'⟩ := hmirrors.returns hfound trivial s₁ trivial
  refine ⟨⟨hscoped.1.of_alike htype, hscoped.2.of_alike hterm⟩, rfl, ?_, ?_⟩
  · exact elaborated.type.alike_self (htype.constants_eq ▸ htype'.constants)
  · exact elaborated.term.alike_self (Core.Alike.constants_eq hterm ▸ Core.Alike.constants hterm')

/-- Normalization keeps both. -/
theorem InScope.normalizes {elaborated normalized : Classified Core}
    (hscoped : Check.Scoped ⟨session.checkerEnv⟩ elaborated)
    (hconstants : alike Value.Closed elaborated elaborated) {s s₁ : Progress Modules}
    (h : (Check.normalized fuel ⟨session.checkerEnv⟩ elaborated :
      Check Modules SessionError (Classified Core)).Returns s normalized s₁) :
    Check.Scoped ⟨session.checkerEnv⟩ normalized ∧ alike Value.Closed normalized normalized := by
  refine ⟨Check.yields_normalized hsession.context.resolvesIn hscoped _ _ _ h, ?_⟩
  have hmirrors : closedConstants.Mirrors
      (Check.normalized fuel ⟨session.checkerEnv⟩ elaborated : Check Modules SessionError _)
      (Check.normalized fuel ⟨session.checkerEnv⟩ elaborated : Check Modules SessionError _) :=
    .normalized hsession.constants hconstants
  obtain ⟨_, _, -, -, -, htype, hterm⟩ := hmirrors.returns h trivial s trivial
  exact ⟨rfl, normalized.type.alike_self htype.constants,
    normalized.term.alike_self (Core.Alike.constants hterm)⟩

/-- An elaborated program evaluates to a closed value, and meets no unbound name. -/
theorem InScope.evaluates {elaborated : Classified Core}
    (hscoped : Check.Scoped ⟨session.checkerEnv⟩ elaborated)
    (hconstants : alike Value.Closed elaborated elaborated) (hrank : elaborated.rank = 0) :
    EndsClosed (evaluate fuel session.runtimeEnv elaborated) := by
  rw [evaluate, if_pos hrank]
  refine Core.eval_closed fuel hsession.values ⟨fun x hx ↦ ?_, Core.Alike.constants hconstants.2.2⟩
  have hmaps := hsession.names x (hscoped.2.bound x ((Core.occursFree_iff_mem x _).mpr hx))
  simpa [Env.maps, runtimeEnv, Env.get?_mapBindings] using hmaps

theorem InScope.admits {program : Term} (hprogram : program.IsPlain) {s : Modules}
    (hs : ∀ i v, s.cached? i = some v → Admits ⟨session.checkerEnv⟩ v) {importer : Option String}
    {elaborated normalized : Classified Core} {value : Value}
    (h : session.Executed fuel importer program s elaborated normalized value) :
    Check.Scoped ⟨session.checkerEnv⟩ normalized ∧ alike Value.Closed normalized normalized ∧
      value.Closed := by
  obtain ⟨hscoped, hconstants⟩ := hsession.elaborates hprogram hs h.elaborates
  obtain ⟨s₁, s₂, hnormalized⟩ := h.normalizes
  obtain ⟨hscoped', hconstants'⟩ := hsession.normalizes hscoped hconstants hnormalized
  refine ⟨hscoped', hconstants', ?_⟩
  by_cases hrank : elaborated.rank = 0
  · obtain ⟨journal, journal₁, hvalue⟩ := h.evaluates hrank
    exact (hsession.evaluates hscoped hconstants hrank).yields _ _ _ hvalue
  · rw [h.absent hrank]
    exact .absent

/-- All modules that are loaded are in scope, and no unbound name is to blame for a failure. -/
def InScope.upkeep (fuel : Nat) : Upkeep fuel session where
  Ok _ _ v := Admits ⟨session.checkerEnv⟩ v
  Blames cause := ∀ name, cause ≠ .runtime (.unbound name)
  Fine := Term.IsPlain
  source hread := hsession.source.read? hread
  stable _ _ _ h := h
  loads hread hs _ hexecuted := by
    obtain ⟨hscoped, hconstants, hvalue⟩ :=
      hsession.admits (hsession.source.read? hread) (fun _ _ hi ↦ hs.ok hi) hexecuted
    exact ⟨hscoped.1, hconstants.2.1.constants, hvalue⟩
  rejected _ _ := nofun
  cyclic _ _ _ := nofun
  missing _ _ := nofun
  runtime hprogram hs helaborates hrank hfails name hcause := by
    obtain ⟨hscoped, hconstants⟩ := hsession.elaborates hprogram (fun _ _ hi ↦ hs.ok hi) helaborates
    injection hcause with hcause
    exact (hsession.evaluates hscoped hconstants hrank).fails _ _ hfails name hcause

end Elaboration

/-! ### Histories -/

/-- A call with a plain program. -/
def Call.IsPlain : Call → Prop
  | .execute _ program => program.IsPlain
  | .define _ _ type? program => (annotated type? program).IsPlain
  | .update _ program => program.IsPlain
  | .forget _ => True

theorem Call.IsPlain.runs {call : Call} (h : call.IsPlain) {fuel : Nat} {program : Term}
    (hruns : call.runs? = some (fuel, program)) : program.IsPlain := by
  cases call with
  | execute | define =>
    obtain ⟨rfl, rfl⟩ := Prod.mk.inj (Option.some.inj hruns)
    exact h
  | update | forget => cases hruns

section Calls

variable {s : Progress Session} (hs : s.host.InScope)

include hs

theorem InScope.sound : s.host.modules.Sound (hs.upkeep fuel).Ok :=
  Upkeep.sound_of_idle _ hs.idle hs.loaded

theorem InScope.withLoaded (fuel : Nat) (program : Term) : (withLoaded fuel program s).InScope := by
  obtain ⟨hsound, hgrows⟩ := (hs.upkeep fuel).ran_keeps hs.sound program
  exact
    { hs with
      loaded := fun h ↦ hsound.ok h
      idle := hgrows.loading.trans hs.idle }

theorem InScope.defined {name : String} {program : Term} (hprogram : program.IsPlain)
    {normalized : Classified Core} {result : Classified Value}
    (hran : (ran fuel program s).1 = .ok (normalized, result)) :
    ((Session.withLoaded fuel program s).bind name normalized result).InScope := by
  obtain ⟨elaborated, value, rfl, hexecuted⟩ := (hs.upkeep fuel).ran_returns hs.idle hs.sound hran
  have hlater := (hs.upkeep fuel).ran_keeps hs.sound program
  obtain ⟨hscoped, hconstants, hvalue⟩ := hs.admits hprogram (fun _ _ hi ↦ hlater.1.ok hi) hexecuted
  have hloaded := hs.withLoaded fuel program
  -- what the typing rules see: a constant in place of a value, or the type itself
  obtain ⟨checked, hchecked, hscoped', hconstants'⟩ : ∃ checked,
      (Session.bind name normalized (normalized.withTerm value)
        (Session.withLoaded fuel program s)).checkerEnv = s.host.checkerEnv.push name checked ∧
      Check.Scoped ⟨s.host.checkerEnv⟩ checked ∧ alike Value.Closed checked checked := by
    refine ⟨_, rfl, ?_, ?_⟩
    · split
      · exact ⟨hscoped.1, Ctx.scopes_const value⟩
      · exact hscoped
    · split
      · exact ⟨rfl, hconstants.2.1, .const hvalue⟩
      · exact hconstants
  have hextends : (Ctx.mk (s.host.checkerEnv.push name checked)).Extends ⟨s.host.checkerEnv⟩ :=
    (Ctx.Extends.refl _).bind name checked
  refine ⟨fun x hx ↦ ?_, fun x hx ↦ ?_, ?_, ?_, ?_, hs.source, fun hv ↦ ?_, hloaded.idle⟩
  · rw [hchecked, Env.maps_push] at hx
    exact (Env.maps_push _ _ _ _).mpr (hx.imp_right (hs.names x))
  · rw [hchecked]
    exact hextends x (hs.prelude x hx)
  · rw [hchecked]
    exact hs.context.bind_value name hscoped'.1 hscoped'.2
  · rw [hchecked]
    exact .cons ⟨rfl, hconstants'⟩ hs.constants
  · exact hs.values.push name hvalue
  · obtain ⟨hscope, hconstants, hvalue⟩ := hloaded.loaded hv
    rw [hchecked]
    exact ⟨hscope.extend hextends, hconstants, hvalue⟩

omit hs in
theorem InScope.invalidate {session : Session} (hsession : session.InScope) (name : String)
    {source : Source} (hsource : source.Forall Term.IsPlain) :
    InScope { session with source := source, modules := session.modules.invalidate name } :=
  { hsession with
    source := hsource
    loaded := fun hv ↦ hsession.loaded (Modules.cached?_of_invalidate hv).1 }

theorem InScope.step {call : Call} (hcall : call.IsPlain) :
    (call.step.start s).2.host.InScope := by
  have hchanges := changes_step s call
  generalize (call.step.start s).2.host = later at hchanges
  cases hchanges with
  | executed fuel program => exact hs.withLoaded fuel program
  | refused => exact hs
  | failed fuel _ type? program => exact hs.withLoaded fuel (annotated type? program)
  | defined _ hran => exact hs.defined hcall hran
  | updated name program => exact hs.invalidate name (hs.source.write name hcall)
  | forgotten name => exact hs.invalidate name (hs.source.forget name)

end Calls

theorem inScope_withPrelude {source : Source} (hsource : source.Forall Term.IsPlain) :
    InScope { withPrelude with source := source } where
  names x hx := by
    change Env.maps Prelude.env x = true
    simpa [withPrelude, Prelude.checkerEnv, Env.maps, Env.get?_mapBindings] using hx
  prelude x hx := by
    change Env.maps Prelude.checkerEnv x = true
    simpa [Prelude.checkerEnv, Env.maps, Env.get?_mapBindings] using hx
  context := Prelude.closed_checkerEnv
  constants := by
    refine List.forall₂_same.mpr fun entry hentry ↦ ⟨rfl, ?_⟩
    obtain ⟨⟨name, judgement⟩, hmem, rfl⟩ := List.mem_map.mp hentry
    obtain ⟨rfl, -⟩ | ⟨op, rfl⟩ := Prelude.mem_env hmem
    · exact ⟨rfl, .univ 0, .var name⟩
    · exact ⟨rfl, Core.alike_self _ (by simp [Prelude.operation, Classified.withTerm,
        Core.constants]), .const (.binary op)⟩
  values x v hv := by
    obtain ⟨⟨name, judgement⟩, hmem, hentry⟩ := List.mem_map.mp hv
    obtain ⟨-, rfl⟩ := Prod.mk.inj hentry
    obtain ⟨rfl, -⟩ | ⟨op, rfl⟩ := Prelude.mem_env hmem
    · exact .absent
    · exact .binary op
  source := hsource
  loaded := nofun
  idle := rfl

theorem inScope_after {start : Progress Session} (hstart : start.host.InScope) {calls : List Call}
    (hcalls : ∀ call ∈ calls, call.IsPlain) : (after start calls).host.InScope :=
  after_keeps (fun _ _ hcall hs ↦ hs.step hcall) hstart hcalls

/-- No call ever fails because a name is unbound at run time: not for its own program, not for a
module that is loaded for it, and not in a closure that an earlier call has made. -/
theorem not_fails_unbound {source : Source} (hsource : source.Forall Term.IsPlain)
    (journal : Journal) {calls : List Call} (hcalls : ∀ call ∈ calls, call.IsPlain) {call : Call}
    (hcall : call.IsPlain) (cause : Unbound) :
    ¬ call.step.Fails (after ⟨{ withPrelude with source := source }, journal⟩ calls)
      (.runtime (.unbound cause)) := by
  have hs : (after ⟨{ withPrelude with source := source }, journal⟩ calls).host.InScope :=
    inScope_after (inScope_withPrelude hsource) hcalls
  intro hfails
  rcases fails_step hfails with ⟨name, hcause⟩ | ⟨fuel, program, hruns, hfails⟩
  · cases hcause
  · exact (hs.upkeep fuel).ran_fails hs.idle hs.sound (hcall.runs hruns) hfails cause rfl

/-- A module of functions that return their first argument, and a function made with it. -/
theorem not_fails_unbound_constant :
    let first : Term := .typedLam "x" (.var "int") (.typedLam "y" (.var "int") (.var "x"))
    let source : Source := [[("first", first)]]
    let calls : List Call := [.define 50 "three" none (.app (.importing "first") (Prelude.int 3))]
    let call : Call := .execute 50 (.app (.var "three") (Prelude.int 4))
    ∀ cause, ¬ call.step.Fails (after ⟨{ withPrelude with source := source }, .empty⟩ calls)
      (.runtime (.unbound cause)) := by
  intro first source calls call cause
  have hfirst : first.IsPlain := by
    intro m hm
    simp only [first, Term.mentions, List.mem_cons, List.mem_append, List.not_mem_nil,
      or_false] at hm
    rcases hm with rfl | rfl | rfl | rfl | rfl
    all_goals
      unfold Mention.IsPlain
      decide
  refine not_fails_unbound ?_ .empty ?_ ?_ cause
  · intro layer hlayer entry hentry
    rw [List.mem_singleton.mp hlayer] at hentry
    rw [List.mem_singleton.mp hentry]
    exact hfirst
  · intro call hcall
    rw [List.mem_singleton.mp hcall]
    intro m hm
    simp only [annotated, Prelude.int, Term.mentions, List.mem_append, List.mem_singleton] at hm
    rcases hm with rfl | rfl
    · trivial
    · exact .int 3
  · intro m hm
    simp only [Prelude.int, Term.mentions, List.mem_append, List.mem_singleton] at hm
    rcases hm with rfl | rfl
    · exact (by decide : "three" ≠ anonymous)
    · exact .int 4

end Session

end RankedTT
