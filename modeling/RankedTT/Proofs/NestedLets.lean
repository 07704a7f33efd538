import RankedTT.Proofs.Convertibility
import RankedTT.Proofs.FaithfulNormalForms
import RankedTT.Proofs.KnownAnswers

/-!
Records and nested let bindings. A member of a record is elaborated with the members before it
unfolded, and their normal values are put into its term; the body of a let binding keeps the
variable, and the definition is evaluated once. If the normal forms of the members are faithful, the
erasures of a member and of the let bindings that end with it have a common reduct.

Both programs are elaborated side by side. What is known of the two contexts after some members is
the invariant `Unfolds`: a name stands for its definition in the let bindings, which reduces to the
normal value that it stands for in the record.
-/

set_option autoImplicit false
set_option relaxedAutoImplicit false

namespace RankedTT

open Nameless Run

/-! ### Answers from some state -/

section Answers

variable {σ κ ε α β : Type}

/-- The computation gives the answer, from some state. -/
def Run.Answers (action : Run σ ε α) (x : α) : Prop := ∃ s s₁, action.Returns s x s₁

theorem Run.Answers.of_bind {a : Run σ ε α} {f : α → Run σ ε β} {y : β}
    (h : (a >>= f).Answers y) : ∃ x, a.Answers x ∧ (f x).Answers y := by
  obtain ⟨s, s₂, h⟩ := h
  obtain ⟨x, s₁, hx, hy⟩ := returns_bind_iff.mp h
  exact ⟨x, ⟨s, s₁, hx⟩, s₁, s₂, hy⟩

theorem Run.Answers.of_pure {x y : α} (h : (pure x : Run σ ε α).Answers y) : x = y := by
  obtain ⟨s, s₁, h⟩ := h
  exact (returns_pure_iff.mp h).1

theorem Run.not_answers_fail {cause : ε} {x : α} : ¬ (fail cause : Run σ ε α).Answers x := by
  rintro ⟨s, s₁, h⟩
  exact not_returns_fail h

theorem Run.Yields.of_answers {a : Run σ ε α} {P : α → Prop} (h : a.Yields P) {x : α}
    (hx : a.Answers x) : P x := by
  obtain ⟨s, s₁, hx⟩ := hx
  exact h s x s₁ hx

/-- Mirrored checks have the same answers, whatever states they are started in. -/
theorem Mirror.Mirrors.sameAs [Likeness α] {a b : Check σ κ α}
    (h : (Mirror.indifferent σ κ).Mirrors a b) {x y : α} (hx : a.Answers x) (hy : b.Answers y) :
    SameAs x y :=
  ((Check.Gives.of_mirrors h).of_answers hx).yields.of_answers hy

end Answers

/-! ### Inversion of the rules -/

section Inversion

variable {σ κ : Type} {host : Host σ κ} {fuel : Nat} {ctx : Ctx} {name : String}
  {c : Classified Core}

theorem Judged.answers_of_logged {rule : Judged σ κ} (h : (rule.logged.infer ctx).Answers c) :
    (rule.infer ctx).Answers c := by
  obtain ⟨found, hfound, h⟩ := h.of_bind
  obtain ⟨_, -, h⟩ := h.of_bind
  exact h.of_pure ▸ hfound

theorem Term.answers_var {x : String} (h : ((Term.var x).infer host ctx).Answers c) :
    ∃ judgement, Env.get? ctx.vars x = some judgement ∧ c = judgement.withTerm (.var x) := by
  obtain ⟨judgement, ⟨s, s₁, hlookup⟩, h⟩ := (Judged.answers_of_logged h).of_bind
  exact ⟨judgement, Ctx.get?_of_lookup (returns_ofExcept_iff.mp hlookup).1, h.of_pure.symm⟩

/-- A let binding is elaborated to an applied lambda. -/
theorem answers_elaborateLet {definition body : Judged σ κ}
    (h : (elaborateLet fuel name definition body none ctx).Answers c) :
    ∃ defined value found, (definition.infer ctx).Answers defined ∧
      (Check.normalized fuel ctx defined : Check σ κ (Classified Core)).Answers value ∧
      (body.infer (ctx.bind name value)).Answers found ∧ c.rank = found.rank ∧
      ∀ τ, c.term.erasure τ =
        call (.lam (found.term.erasure (under τ name))) (defined.term.erasure τ) := by
  obtain ⟨_, -, h⟩ := h.of_bind
  obtain ⟨defined, hdefined, h⟩ := h.of_bind
  obtain ⟨value, hvalue, h⟩ := h.of_bind
  obtain ⟨found, hfound, h⟩ := h.of_bind
  obtain ⟨result, -, h⟩ := h.of_bind
  obtain ⟨function, hfunction, h⟩ := h.of_bind
  obtain rfl := h.of_pure
  refine ⟨defined, value, found, hdefined, hvalue, hfound, rfl, fun τ ↦ ?_⟩
  have hlam := (Check.stamp_unstamped _).of_answers hfunction
  have herasure := Core.erasure_eq_of_unstamped_eq hlam τ
  exact congrArg (call · (defined.term.erasure τ)) herasure

/-- A record is elaborated member by member. -/
theorem answers_inferMembers_cons {earlier : Substitution} {rule : Judged σ κ}
    {rest : List (String × Judged σ κ)} {found : Nat × Telescope × List Core}
    (h : (inferMembers fuel ctx earlier ((name, rule) :: rest)).Answers found) :
    ctx.isFresh name = true ∧ ∃ defined value member later, (rule.infer ctx).Answers defined ∧
      (Check.normalized fuel ctx defined : Check σ κ (Classified Core)).Answers value ∧
      member.unstamped = (defined.term.subst earlier).unstamped ∧
      (inferMembers fuel (ctx.bind name value) (.insert earlier name value.term) rest).Answers
        later ∧
      found = (max value.rank later.1, .cons value.rank value.type name later.2.1,
        member :: later.2.2) := by
  obtain ⟨_, hfresh, h⟩ := h.of_bind
  obtain ⟨defined, hdefined, h⟩ := h.of_bind
  obtain ⟨value, hvalue, h⟩ := h.of_bind
  obtain ⟨member, hmember, h⟩ := h.of_bind
  obtain ⟨later, hlater, h⟩ := h.of_bind
  refine ⟨Check.yields_ensureFresh.of_answers hfresh, defined, value, member, later, hdefined,
    hvalue, (Check.stamp_unstamped _).of_answers hmember, hlater, ?_⟩
  exact h.of_pure.symm

/-- The name of a member is fresh before all members. -/
theorem isFresh_of_answers {x : String} {rule : Judged σ κ}
    {before later : List (String × Judged σ κ)} {earlier : Substitution}
    {found : Nat × Telescope × List Core}
    (h : (inferMembers fuel ctx earlier (before ++ (x, rule) :: later)).Answers found) :
    ctx.isFresh x = true := by
  induction before generalizing ctx earlier found with
  | nil => exact (answers_inferMembers_cons h).1
  | cons member before ih =>
    obtain ⟨-, _, _, _, _, -, -, -, hlater, -⟩ := answers_inferMembers_cons h
    have hfresh := ih hlater
    simp only [Ctx.isFresh, Bool.or_eq_true, Bool.not_eq_true', ← Bool.not_eq_true] at hfresh ⊢
    exact hfresh.imp_right fun hmaps hx ↦ hmaps (Ctx.maps_bind.mpr (.inr hx))

/-- A member that is accessed is projected from the record, whose type says where it stands. -/
theorem answers_inferAccess {operator : Judged σ κ}
    (h : (inferAccess fuel operator name ctx).Answers c) :
    ∃ found types member, (operator.infer ctx).Answers found ∧
      (Check.normalize fuel ctx found.type : Check σ κ Core).Answers (.signature types) ∧
      findMember? ⟨found.rank, .signature types, found.term⟩ name 0 [] types = some member ∧
      c.rank = member.rank ∧
      c.term = .project ⟨found.rank, .signature types, found.term⟩ member.term := by
  obtain ⟨found, hfound, h⟩ := h.of_bind
  obtain ⟨type, htype, h⟩ := h.of_bind
  cases type with
  | signature types =>
    dsimp only at h
    cases hmember : findMember? ⟨found.rank, .signature types, found.term⟩ name 0 [] types with
    | some member =>
      rw [hmember] at h
      obtain ⟨memberType, -, h⟩ := h.of_bind
      obtain rfl := h.of_pure
      exact ⟨found, types, member, hfound, htype, hmember, rfl, rfl⟩
    | none =>
      rw [hmember] at h
      exact absurd h not_answers_fail
  | _ => exact absurd h not_answers_fail

end Inversion

/-! ### The place of a member -/

/-- The first member called `name` stands at a position, and lives in a universe. -/
inductive Telescope.FirstAt (name : String) : Telescope → Nat → Nat → Prop
  | here {rank : Nat} {type : Core} {rest : Telescope} :
      FirstAt name (.cons rank type name rest) 0 rank
  | there {i rank rank' : Nat} {type : Core} {label : String} {rest : Telescope}
      (hlabel : label ≠ name) (h : FirstAt name rest i rank) :
      FirstAt name (.cons rank' type label rest) (i + 1) rank

namespace Telescope.FirstAt

variable {name : String} {types types' : Telescope} {i rank : Nat}

theorem of_unstamped_eq (h : types.FirstAt name i rank)
    (heq : types'.unstamped = types.unstamped) : types'.FirstAt name i rank := by
  induction h generalizing types' with
  | here =>
    cases types' with
    | nil => cases heq
    | cons =>
      simp only [Telescope.unstamped, Telescope.cons.injEq] at heq
      obtain ⟨rfl, -, rfl, -⟩ := heq
      exact .here
  | there hlabel _ ih =>
    cases types' with
    | nil => cases heq
    | cons =>
      simp only [Telescope.unstamped, Telescope.cons.injEq] at heq
      obtain ⟨-, -, rfl, hrest⟩ := heq
      exact .there hlabel (ih hrest)

/-- Normalization keeps the names and the ranks of members. -/
theorem normalizes {env : NormEnv} {c c' : Nat} (h : types.FirstAt name i rank)
    (hn : types.Normalizes env c types' c') : types'.FirstAt name i rank := by
  induction h generalizing types' env c with
  | here =>
    cases hn with
    | cons => exact .here
  | there hlabel _ ih =>
    cases hn with
    | cons _ hrest => exact .there hlabel (ih hrest)

theorem findMember?_eq (h : types.FirstAt name i rank) {record : Classified Core} {position : Nat}
    {earlier : Substitution} {member : Classified Nat}
    (hmember : findMember? record name position earlier types = some member) :
    member.rank = rank ∧ member.term = position + i := by
  induction h generalizing position earlier with
  | here =>
    rw [findMember?, if_pos (beq_self_eq_true name)] at hmember
    obtain rfl := Option.some.inj hmember
    exact ⟨rfl, rfl⟩
  | there hlabel _ ih =>
    rw [findMember?, if_neg (by simpa using hlabel)] at hmember
    obtain ⟨hrank, hterm⟩ := ih hmember
    exact ⟨hrank, by omega⟩

end Telescope.FirstAt

/-! ### Side by side -/

/-- `let x₁ = e₁ in … let xₖ = eₖ in body` -/
def Term.letAll (members : List (String × Term)) (body : Term) : Term :=
  members.foldr (fun member body ↦ .letIn member.1 member.2 body) body

/-- Each member is elaborated in the context of the members before it, and the normal form of what
it is elaborated to is faithful. -/
def FaithfulMembers (fuel : Nat) : Ctx → List (String × Term) → Prop
  | _, [] => True
  | ctx, (name, e) :: rest => (e.infer (Host.withoutImports fuel) ctx).Yields fun defined ↦
      (Call.core ctx.values defined.term 0).Faithful ∧
        (Check.normalized fuel ctx defined : Check Unit Unresolved (Classified Core)).Yields
          fun value ↦ FaithfulMembers fuel (ctx.bind name value) rest

/-- What free names stand for. A bound name that no binder is left for stands for a type. -/
def Nameless.standsFor (image : String → Nameless) : Ref → Nameless
  | .free x => image x
  | .bound _ => .univ 0

/-- After some members: `ctx` is the context of the record, `earlier` holds the values of the
members before, names stand for `τ` in the let bindings, and for `τ₀` outside. -/
structure Unfolds (τ₀ : Ref → Nameless) (ctx : Ctx) (earlier : Substitution) (τ : Ref → Nameless) :
    Prop where
  named : ∀ x, anonymous ∉ (NormEnv.image ctx.values x).freeNames
  avoids : earlier.AvoidsAnonymous
  images : ∀ x, (earlier.image x).erasure τ₀ = (NormEnv.image ctx.values x).erasure τ₀
  reduces : ∀ x, Reduces (τ (.free x)) ((NormEnv.image ctx.values x).erasure τ₀)

namespace Unfolds

variable {σ κ : Type} {fuel : Nat} {ctx : Ctx} {earlier : Substitution} {τ₀ τ : Ref → Nameless}

/-- A term of the let bindings reduces to the one that has the members before put in. -/
theorem reduces_member (h : Unfolds τ₀ ctx earlier τ) {t member : Core}
    (hmember : member.unstamped = (t.subst earlier).unstamped) :
    Reduces (t.erasure τ) (member.erasure τ₀) := by
  let υ := standsFor fun x ↦ (earlier.image x).erasure τ₀
  rw [Core.erasure_eq_of_unstamped_eq hmember, t.erasure_substituted (τ := υ) earlier h.avoids
    fun _ _ ↦ rfl]
  refine t.erasure_reduces fun x _ ↦ ?_
  change Reduces _ ((earlier.image x).erasure τ₀)
  rw [h.images x]
  exact h.reduces x

/-- The definition of a name reduces to the normal value of the member. -/
theorem bind (h : Unfolds τ₀ ctx earlier τ) (name : String) {defined value : Classified Core}
    (hfaithful : (Call.core ctx.values defined.term 0).Faithful)
    (hvalue : (Check.normalized fuel ctx defined : Check σ κ (Classified Core)).Answers value) :
    Unfolds τ₀ (ctx.bind name value) (.insert earlier name value.term)
      (rebind τ name (defined.term.erasure τ)) := by
  obtain ⟨-, -, hterm⟩ := (Check.normalized_normalizes defined).of_answers hvalue
  have hnamed : anonymous ∉ value.term.freeNames := by
    intro hmem
    obtain ⟨y, -, hy⟩ := hterm.mem_freeNames hmem
    exact h.named y hy
  let υ := standsFor fun x ↦ (NormEnv.image ctx.values x).erasure τ₀
  have hreduces : Reduces (defined.term.erasure τ) (value.term.erasure τ₀) := by
    obtain ⟨n, hn, hsame⟩ := hterm
    obtain ⟨_, hc⟩ := Core.normalizes_of_normalForm hn
    rw [← Core.erasure_eq_of_unstamped_eq (Core.sameAs_iff.mp hsame)]
    exact (defined.term.erasure_reduces (υ := υ) fun x _ ↦ h.reduces x).trans
      (hc.reduces_erasure hfaithful fun _ _ ↦ rfl)
  refine ⟨fun x ↦ ?_, fun x hx ↦ ?_, fun x ↦ ?_, fun x ↦ ?_⟩
  · rw [Ctx.image_values_bind]
    split
    · exact hnamed
    · exact h.named x
  · rw [Substitution.image_insert]
    split
    · exact hnamed
    · exact h.avoids x hx
  · rw [Ctx.image_values_bind, Substitution.image_insert]
    split
    · rfl
    · exact h.images x
  · rw [Ctx.image_values_bind]
    split
    · rename_i hname
      rw [hname, rebind_self]
      exact hreduces
    · rename_i hname
      rw [rebind_of_ne _ _ _ hname]
      exact h.reduces x

end Unfolds

/-- No import is answered, so that the rules of all terms mirror themselves. -/
theorem Term.rule_indifferent_withoutImports (fuel : Nat) (t : Term) :
    (t.rule (Host.withoutImports fuel)).Mirrored (.indifferent Unit Unresolved)
      (t.rule (Host.withoutImports fuel)) := by
  refine t.rule_mirrored rfl fun m _ ↦ ?_
  cases m with
  | identifier _ => trivial
  | constant content => exact Likeness.alike_refl (fun _ ↦ trivial) content
  | imported _ => exact Follows.fail trivial

theorem Fields.judged_ofList {σ κ : Type} (host : Host σ κ) (members : List (String × Term)) :
    (Fields.ofList members).judged host = members.map fun m ↦ (m.1, m.2.judged host) := by
  induction members with
  | nil => rfl
  | cons m ms ih => exact congrArg _ ih

/-- The member `x` of a record, and the let bindings that end with it. -/
theorem Unfolds.join {fuel : Nat} {τ₀ : Ref → Nameless} {x : String} {e : Term}
    {before later : List (String × Term)} (hx : x ≠ anonymous) {ctx ctx' : Ctx}
    {earlier : Substitution} {τ : Ref → Nameless} {found : Nat × Telescope × List Core}
    {c : Classified Core} (h : Unfolds τ₀ ctx earlier τ) (hctx : SameAs ctx ctx')
    (hfaithful : FaithfulMembers fuel ctx before)
    (hrecord : (inferMembers fuel ctx earlier ((before ++ (x, e) :: later).map fun m ↦
      (m.1, m.2.judged (Host.withoutImports fuel)))).Answers found)
    (hlets : ((Term.letAll (before ++ [(x, e)]) (.var x)).infer (Host.withoutImports fuel)
      ctx').Answers c) :
    found.2.1.FirstAt x before.length c.rank ∧ ∃ member, found.2.2[before.length]? = some member ∧
      Reduces (c.term.erasure τ) (member.erasure τ₀) := by
  have hmirrored (t : Term) := (t.rule_indifferent_withoutImports fuel).logged
  induction before generalizing ctx ctx' earlier τ found c with
  | nil =>
    obtain ⟨-, defined, value, member, rest, hdefined, hvalue, hmember, -, rfl⟩ :=
      answers_inferMembers_cons hrecord
    obtain ⟨defined', value', body, hdefined', hvalue', hbody, hrank, hterm⟩ :=
      answers_elaborateLet (Judged.answers_of_logged hlets)
    obtain ⟨judgement, hget, rfl⟩ := Term.answers_var hbody
    have hsame := ((hmirrored e).infer hctx).sameAs hdefined hdefined'
    have hvalues := (Mirror.Mirrors.normalized hctx hsame).sameAs hvalue hvalue'
    obtain rfl : value' = judgement := by simpa [Ctx.bind] using hget
    refine ⟨?_, member, rfl, ?_⟩
    · rw [hrank, show (value'.withTerm (.var x)).rank = value.rank from hvalues.1.symm]
      exact .here
    · rw [hterm]
      refine (Core.reduces_erasure_call τ x (.var x) _).trans ?_
      rw [Core.erasure, rebind_self,
        ← Core.erasure_eq_of_unstamped_eq (Core.sameAs_iff.mp hsame.2.2)]
      exact h.reduces_member hmember
  | cons m before ih =>
    obtain ⟨y, definition⟩ := m
    rw [List.cons_append, List.map_cons] at hrecord
    obtain ⟨-, defined, value, member, rest, hdefined, hvalue, -, hrest, rfl⟩ :=
      answers_inferMembers_cons hrecord
    obtain ⟨defined', value', body, hdefined', hvalue', hbody, hrank, hterm⟩ :=
      answers_elaborateLet (Judged.answers_of_logged hlets)
    have hsame := ((hmirrored definition).infer hctx).sameAs hdefined hdefined'
    have hvalues := (Mirror.Mirrors.normalized hctx hsame).sameAs hvalue hvalue'
    obtain ⟨hfaithful, hfaithfulRest⟩ := Yields.of_answers hfaithful hdefined
    -- the name of a member before `x` is bound when that of `x` is found fresh
    have hne : y ≠ x := by
      rw [List.map_append, List.map_cons] at hrest
      exact Ctx.ne_of_isFresh (isFresh_of_answers hrest) hx (Ctx.maps_bind.mpr (.inl rfl))
    obtain ⟨hfirst, last, hlast, hreduces⟩ := ih (h.bind y hfaithful hvalue)
      (Ctx.alike_bind hctx y hvalues) (hfaithfulRest.of_answers hvalue) hrest hbody
    refine ⟨hrank ▸ .there hne hfirst, last, hlast, ?_⟩
    rw [hterm, ← Core.erasure_eq_of_unstamped_eq (Core.sameAs_iff.mp hsame.2.2)]
    exact (Core.reduces_erasure_call τ y body.term _).trans hreduces

/-! ### A test for faithful members -/

/-- No record member has a name in the term, no variable is anonymous, and no name begins with an
underscore. -/
def Core.hasPlainNames (t : Core) : Bool :=
  t.names.all fun entry ↦ entry.1 != .label && entry != (.reference, anonymous) &&
    entry.2.toList.head? != some '_'

theorem Core.plain_of_hasPlainNames {t : Core} (h : t.hasPlainNames = true) : t.Plain := by
  simp only [Core.hasPlainNames, List.all_eq_true, Bool.and_eq_true, bne_iff_ne, and_assoc] at h
  exact .of_names h

/-- So it is with the values of an environment, whose free names are in scope. -/
def NormEnv.hasPlainNames (env : NormEnv) : Bool :=
  env.all fun entry ↦ entry.2.hasPlainNames && entry.2.freeNames.all (Env.maps env)

theorem NormEnv.tame_of_hasPlainNames {env env' : NormEnv} (h : env.hasPlainNames = true)
    (halike : AlikeBindings (fun _ ↦ True) env env') : env'.Tame (fun _ ↦ False) 0 := by
  simp only [NormEnv.hasPlainNames, List.all_eq_true, Bool.and_eq_true] at h
  have hvalues {x : String} (hx : Env.maps env' x = true) : (image env' x).Plain ∧
      ∀ y ∈ (image env' x).freeNames, Env.maps env' y = true := by
    have hmaps : Env.maps env x = true := by rwa [halike.maps_eq]
    obtain ⟨hplain, hnames⟩ := h _ (Plain.mem_of_maps hmaps)
    have hsame : (image env x).Alike (fun _ ↦ True) (image env' x) :=
      halike.lookup_getD x (.var x)
    constructor
    · exact Core.plain_of_hasPlainNames (by rwa [Core.hasPlainNames, ← hsame.names_eq])
    · rw [← hsame.freeNames_eq]
      exact fun y hy ↦ (halike.maps_eq y).symm.trans (hnames y hy)
  exact ⟨⟨fun x hx ↦ (hvalues hx).2, fun x hx _ ↦ ((hvalues hx).1.tame 0).below⟩,
    fun x hx _ _ ↦ ((hvalues hx).1.tame 0).apart⟩

/-- Each member is elaborated to a plain term, among names that stand for plain terms. -/
def plainMembers (fuel : Nat) : Ctx → List (String × Term) → Bool
  | _, [] => true
  | ctx, (name, e) :: rest => ctx.values.hasPlainNames &&
      ((e.infer (Host.withoutImports fuel) ctx).outcome ⟨(), .empty⟩).toOption.any fun defined ↦
        defined.term.hasPlainNames &&
          ((Check.normalized fuel ctx defined : Check Unit Unresolved (Classified Core)).outcome
            ⟨(), .empty⟩).toOption.any fun value ↦ plainMembers fuel (ctx.bind name value) rest

theorem faithfulMembers_of_plain {fuel : Nat} {members : List (String × Term)} {ctx ctx' : Ctx}
    (hctx : SameAs ctx ctx') (h : plainMembers fuel ctx members = true) :
    FaithfulMembers fuel ctx' members := by
  induction members generalizing ctx ctx' with
  | nil => trivial
  | cons member rest ih =>
    obtain ⟨name, e⟩ := member
    obtain ⟨hvalues, h⟩ := Bool.and_eq_true_iff.mp h
    obtain ⟨defined, hdefined, h⟩ := exists_eq_ok_of_any h
    obtain ⟨hplain, h⟩ := Bool.and_eq_true_iff.mp h
    obtain ⟨value, hvalue, h⟩ := exists_eq_ok_of_any h
    obtain ⟨_, hdefined⟩ := outcome_eq_ok_iff.mp hdefined
    obtain ⟨_, hvalue⟩ := outcome_eq_ok_iff.mp hvalue
    -- what other states lead to is the same up to stamps
    intro s defined' s₁ hdefined'
    have hmirrors := ((e.rule_indifferent_withoutImports fuel).logged.infer hctx)
    have hsame := hmirrors.sameAs ⟨_, _, hdefined⟩ ⟨s, s₁, hdefined'⟩
    constructor
    · refine Call.Tame.faithful (L := fun _ ↦ False) (by simp [OriginalLabels]) ⟨?_, ?_⟩
      · exact NormEnv.tame_of_hasPlainNames hvalues (Ctx.alike_values hctx)
      · refine (Core.plain_of_hasPlainNames ?_).tame 0
        rwa [Core.hasPlainNames, ← Core.Alike.names_eq hsame.2.2]
    · intro s value' s₁ hvalue'
      have hsame := (Mirror.Mirrors.normalized hctx hsame).sameAs ⟨_, _, hvalue⟩ ⟨s, s₁, hvalue'⟩
      exact ih (Ctx.alike_bind hctx name hsame) h

/-! ### In one context -/

/-- What the names of a context stand for where they are evaluated: names without a value are
types. -/
def Ctx.unfolding (ctx : Ctx) : Ref → Nameless :=
  standsFor fun x ↦ (NormEnv.image ctx.values x).erasure fun _ ↦ .univ 0

theorem Ctx.unfolding_free (ctx : Ctx) (x : String) :
    ctx.unfolding (.free x) = (NormEnv.image ctx.values x).erasure fun _ ↦ .univ 0 := rfl

/-- The values of names mention names only that stand for themselves, and not the anonymous
one. -/
structure Ctx.IsUnfolded (ctx : Ctx) : Prop where
  settled : ∀ x, ∀ y ∈ (NormEnv.image ctx.values x).freeNames, NormEnv.image ctx.values y = .var y
  named : ∀ x, anonymous ∉ (NormEnv.image ctx.values x).freeNames

theorem Ctx.IsUnfolded.unfolds {ctx : Ctx} (h : ctx.IsUnfolded) :
    Unfolds ctx.unfolding ctx [] ctx.unfolding := by
  have himages (x : String) :
      (NormEnv.image ctx.values x).erasure ctx.unfolding = ctx.unfolding (.free x) := by
    refine Core.erasure_congr _ fun y hy ↦ ?_
    rw [Ctx.unfolding_free, h.settled x y hy]
    rfl
  refine ⟨h.named, fun x hx ↦ ?_, fun x ↦ (himages x).symm, fun x ↦ ?_⟩
  · simpa [Core.freeNames] using Ne.symm hx
  · rw [himages x]

/-- A record member and the let bindings that end with it live in the same universe, and their
erasures have a common reduct. -/
theorem Ctx.IsUnfolded.access_join {fuel : Nat} {ctx : Ctx} (hctx : ctx.IsUnfolded) {x : String}
    {e : Term} {before later : List (String × Term)} {c d : Classified Core} (hx : x ≠ anonymous)
    (hfaithful : FaithfulMembers fuel ctx before)
    (hc : ((Term.access (.record (Fields.ofList (before ++ (x, e) :: later))) x).infer
      (Host.withoutImports fuel) ctx).Answers c)
    (hd : ((Term.letAll (before ++ [(x, e)]) (.var x)).infer (Host.withoutImports fuel)
      ctx).Answers d) :
    c.rank = d.rank ∧ ∃ u, Reduces (c.term.erasure ctx.unfolding) u ∧
      Reduces (d.term.erasure ctx.unfolding) u := by
  obtain ⟨record, types, member, hrecord, htypes, hmember, hrank, hterm⟩ :=
    answers_inferAccess (Judged.answers_of_logged hc)
  obtain ⟨found, hfound, h⟩ := (Judged.answers_of_logged hrecord).of_bind
  obtain rfl := h.of_pure
  rw [Fields.judged_ofList] at hfound
  obtain ⟨hfirst, last, hlast, hreduces⟩ :=
    hctx.unfolds.join hx (SameAs.refl ctx) hfaithful hfound hd
  obtain ⟨n, hn, hsame⟩ := (Check.yields_normalizes _).of_answers htypes
  obtain ⟨_, hn⟩ := Core.normalizes_of_normalForm hn
  cases hn with
  | signature hmembers =>
    have hplace : types.FirstAt x before.length d.rank :=
      (hfirst.normalizes hmembers).of_unstamped_eq
        (Core.signature.inj (Core.sameAs_iff.mp hsame)).symm
    obtain ⟨hmemberRank, hposition⟩ := hplace.findMember?_eq hmember
    refine ⟨hrank.trans hmemberRank, _, ?_, hreduces⟩
    rw [hterm, hposition, Nat.zero_add]
    exact .single (.select 0 _ (.refl _) (Core.nth_erasureMembers _ hlast))

end RankedTT
