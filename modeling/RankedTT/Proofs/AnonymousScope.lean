import RankedTT.Proofs.Elaboration

/-!
Elaboration where the anonymous name is bound. A variable with the anonymous name may leave the
scope of its binder when terms are moved, since the anonymous name is never renamed and never
substituted. It cannot leave the context: if the context itself binds the anonymous name, as the
prelude does, then whatever is derived for a program mentions names of the context only.
-/

set_option autoImplicit false
set_option relaxedAutoImplicit false

namespace RankedTT

/-! ### Terms about the names of a context -/

/-- Every free name of the term is bound. -/
def Ctx.Covers (ctx : Ctx) (t : Core) : Prop := ∀ x ∈ t.freeNames, ctx.maps x = true

/-- Type and term of a judgement are about names of the context. -/
def Classified.CoveredBy (judgement : Classified Core) (ctx : Ctx) : Prop :=
  ctx.Covers judgement.type ∧ ctx.Covers judgement.term

/-- The values of the names in `ctx` are about names of `base`. -/
def Ctx.ResolvesWithin (ctx base : Ctx) : Prop :=
  ∀ x, ctx.maps x = true → base.Covers (NormEnv.image ctx.values x)

namespace Ctx

/-- The anonymous name and the types of literals are bound, and all judgements are about bound
names. -/
structure Whole (ctx : Ctx) : Prop where
  anonymous : ctx.maps anonymous = true
  int : ctx.maps "int" = true
  string : ctx.maps "string" = true
  judgements : ∀ x judgement, Env.get? ctx.vars x = some judgement → judgement.CoveredBy ctx

variable {ctx base : Ctx} {name : String} {judgement : Classified Core} {t : Core}

theorem Covers.extend (h : base.Covers t) (hext : ctx.Extends base) : ctx.Covers t :=
  fun x hx ↦ hext x (h x hx)

theorem Covers.bind (h : ctx.Covers t) (name : String) (judgement : Classified Core) :
    (ctx.bind name judgement).Covers t :=
  h.extend ((Extends.refl ctx).bind name judgement)

theorem covers_bind_iff :
    (ctx.bind name judgement).Covers t ↔ ∀ x ∈ t.freeNames, x = name ∨ ctx.maps x = true := by
  simp only [Covers, maps_bind]

theorem covers_var_iff {x : String} : ctx.Covers (.var x) ↔ ctx.maps x = true := by
  simp [Covers, Core.freeNames]

@[simp]
theorem covers_univ (rank : Nat) : ctx.Covers (.univ rank) := by
  simp [Covers, Core.freeNames]

@[simp]
theorem covers_const (value : Value) : ctx.Covers (.const value) := by
  simp [Covers, Core.freeNames]

theorem covers_app_iff {rank : Nat} {type operator operand : Core} :
    ctx.Covers (.app rank type operator operand) ↔
      ctx.Covers type ∧ ctx.Covers operator ∧ ctx.Covers operand := by
  simp only [Covers, Core.freeNames, List.forall_mem_append, and_assoc]

theorem covers_proj_iff {rank index : Nat} {type operator : Core} :
    ctx.Covers (.proj rank type operator index) ↔ ctx.Covers type ∧ ctx.Covers operator := by
  simp only [Covers, Core.freeNames, List.forall_mem_append]

/-- A binder covers what the context covers with its name. -/
theorem covers_filter_iff {xs : List String} (judgement : Classified Core) :
    (∀ x ∈ xs.filter (· != name), ctx.maps x = true) ↔
      ∀ x ∈ xs, (ctx.bind name judgement).maps x = true := by
  simp only [maps_bind, List.mem_filter, bne_iff_ne, and_imp]
  exact forall₂_congr fun x _ ↦ or_iff_not_imp_left.symm

theorem covers_quant_iff {polarity : Polarity} {rank : Nat} {domain codomain : Core}
    (judgement : Classified Core) :
    ctx.Covers (.quant polarity rank domain name codomain) ↔
      ctx.Covers domain ∧ (ctx.bind name judgement).Covers codomain := by
  simp only [Covers, Core.freeNames, List.forall_mem_append]
  rw [covers_filter_iff judgement]

theorem Covers.arrow {polarity : Polarity} {rank : Nat} {domain range : Core}
    (hdomain : ctx.Covers domain) (hrange : ctx.Covers range) :
    ctx.Covers (.quant polarity rank domain anonymous range) :=
  (covers_quant_iff default).mpr ⟨hdomain, hrange.bind _ _⟩

theorem covers_lam_iff {stamp : Stamp} {body : Core} (judgement : Classified Core) :
    ctx.Covers (.lam name stamp body) ↔ (ctx.bind name judgement).Covers body :=
  covers_filter_iff judgement

theorem covers_signature_cons_iff {rank : Nat} {type : Core} {rest : Telescope}
    (judgement : Classified Core) :
    ctx.Covers (.signature (.cons rank type name rest)) ↔
      ctx.Covers type ∧ (ctx.bind name judgement).Covers (.signature rest) := by
  simp only [Covers, Core.freeNames, Telescope.freeNames, List.forall_mem_append]
  rw [covers_filter_iff judgement]

theorem covers_record_cons_iff {m : Core} {ms : List Core} :
    ctx.Covers (.record (m :: ms)) ↔ ctx.Covers m ∧ ctx.Covers (.record ms) := by
  simp only [Covers, Core.freeNames, Core.freeNamesMembers, List.forall_mem_append]

/-- A class, applied to a new name. -/
theorem Covers.app_declared {n : Nat} {type operator : Core} {declared : Classified String}
    (htype : ctx.Covers type) (hoperator : ctx.Covers operator) :
    (ctx.bindDeclared declared).Covers (.app n type operator (.var declared.term)) :=
  covers_app_iff.mpr ⟨htype.bind _ _, hoperator.bind _ _,
    covers_var_iff.mpr (maps_bind.mpr (.inl rfl))⟩

theorem Covers.of_unstamped_eq {s : Core} (h : ctx.Covers s) (heq : t.unstamped = s.unstamped) :
    ctx.Covers t := by
  intro x hx
  rw [← t.freeNames_unstamped, heq, s.freeNames_unstamped] at hx
  exact h x hx

/-! ### Contexts -/

theorem Whole.resolvesWithin (h : ctx.Whole) : ctx.ResolvesWithin ctx := by
  intro x hx
  obtain ⟨judgement, hget⟩ := Option.isSome_iff_exists.mp hx
  rw [image_values_of_get? hget]
  exact (h.judgements x judgement hget).2

theorem ResolvesWithin.bind (h : ctx.ResolvesWithin base) (hterm : base.Covers judgement.term) :
    (ctx.bind name judgement).ResolvesWithin base := by
  intro x hx
  rw [image_values_bind]
  split
  · exact hterm
  · rename_i hne
    exact h x ((maps_bind.mp hx).resolve_left hne)

theorem Whole.bind (h : ctx.Whole) (htype : ctx.Covers judgement.type)
    (hterm : (ctx.bind name judgement).Covers judgement.term) :
    (ctx.bind name judgement).Whole := by
  have hext := (Extends.refl ctx).bind name judgement
  refine ⟨hext _ h.anonymous, hext _ h.int, hext _ h.string, fun x found hget ↦ ?_⟩
  by_cases hx : x = name
  · subst hx
    obtain rfl : judgement = found := by simpa [Ctx.bind] using hget
    exact ⟨htype.extend hext, hterm⟩
  · rw [Ctx.bind, Env.get?_push_of_ne _ _ hx] at hget
    exact ⟨(h.judgements x found hget).1.extend hext, (h.judgements x found hget).2.extend hext⟩

theorem Whole.bindValue (h : ctx.Whole) (name : String) (hjudgement : judgement.CoveredBy ctx) :
    (ctx.bind name judgement).Whole :=
  h.bind hjudgement.1 (hjudgement.2.bind name judgement)

theorem Whole.bindDeclared (h : ctx.Whole) {rank : Nat} {domain : Core}
    (hdomain : ctx.Covers domain) : (ctx.bindDeclared ⟨rank, domain, name⟩).Whole :=
  Whole.bind h hdomain (covers_var_iff.mpr (maps_bind.mpr (.inl rfl)))

end Ctx

/-! ### Moves -/

section Moves

variable {fuel : Nat} {ctx base : Ctx} {t result : Core}

theorem Move.Computed.covers_normalize (h : (Move.normalize ctx t result).Computed fuel)
    (ht : ctx.Covers t) (hvalues : ctx.ResolvesWithin base) : base.Covers result := by
  obtain ⟨n, hn, hresult⟩ := h
  obtain ⟨c, hc⟩ := Core.normalizes_of_normalForm hn
  refine Ctx.Covers.of_unstamped_eq (fun x hx ↦ ?_) hresult
  obtain ⟨y, hy, hx⟩ := hc.mem_freeNames hx
  exact hvalues y (ht y hy) x hx

/-- Terms in place of names. If nothing was put in for the anonymous name, the context binds what is
left of it. -/
theorem Move.Computed.covers_substitute {images : Substitution}
    (h : (Move.substitute images t result).Computed fuel) (hanonymous : ctx.maps anonymous = true)
    (himages : ∀ y ∈ t.freeNames, ctx.Covers (images.image y)) : ctx.Covers result := by
  rcases h with hresult | ⟨name, image, rfl, hleft, rfl⟩
  · refine Ctx.Covers.of_unstamped_eq (fun x hx ↦ ?_) hresult
    obtain ⟨y, hy, hx⟩ := t.mem_freeNames_subst images hx
    exact himages y hy x hx
  · intro x hx
    have himage := himages x hx
    rw [Substitution.image_single] at himage
    split at himage
    · rename_i hname
      subst hname
      rcases hleft with rfl | rfl
      · exact hanonymous
      · exact Ctx.covers_var_iff.mp himage
    · exact Ctx.covers_var_iff.mp himage

/-- One term for the name of a binder. -/
theorem Move.Computed.covers_single {name : String} {operand : Core} {judgement : Classified Core}
    (h : (Move.substitute (.single name operand) t result).Computed fuel) (hctx : ctx.Whole)
    (ht : (ctx.bind name judgement).Covers t) (hoperand : ctx.Covers operand) :
    ctx.Covers result := by
  refine h.covers_substitute hctx.anonymous fun y hy ↦ ?_
  rw [Substitution.image_single]
  split
  · exact hoperand
  · rename_i hne
    exact Ctx.covers_var_iff.mpr ((Ctx.covers_bind_iff.mp ht y hy).resolve_left hne)

end Moves

/-- The member of a record type: the members before it are projected from the record. -/
theorem Selects.covers {ctx : Ctx} {record : Classified Core} {name : String} {i rank j : Nat}
    {earlier σ : Substitution} {types : Telescope} {type : Core}
    (h : Selects record name i earlier types σ rank type j) (hrecord : record.CoveredBy ctx)
    (hearlier : ∀ y ∈ types.freeNames, ctx.Covers (earlier.image y)) :
    ∀ y ∈ type.freeNames, ctx.Covers (σ.image y) := by
  induction h with
  | here => exact fun y hy ↦ hearlier y (List.mem_append_left _ hy)
  | @there i rank rank' j earlier σ type type' label rest hlabel h ih =>
    refine ih fun y hy ↦ ?_
    rw [Substitution.image_insert]
    split
    · exact Ctx.covers_proj_iff.mpr hrecord
    · rename_i hne
      exact hearlier y (List.mem_append_right _ (by simpa [hne] using hy))

/-- Below the members of a record so far: their values are about names from outside the record, as
variables and as what is substituted for them. -/
structure Ctx.CoversMembers (outer ctx : Ctx) (earlier : Substitution) : Prop where
  base : outer.Whole
  whole : ctx.Whole
  extend : ctx.Extends outer
  values : ctx.ResolvesWithin outer
  images : ∀ x, ctx.maps x = true → outer.Covers (earlier.image x)

namespace Ctx.CoversMembers

variable {fuel : Nat} {outer ctx : Ctx} {earlier : Substitution}

theorem start (h : ctx.Whole) : CoversMembers ctx ctx [] where
  base := h
  whole := h
  extend := .refl ctx
  values := h.resolvesWithin
  images _ hx := covers_var_iff.mpr hx

theorem bind (h : CoversMembers outer ctx earlier) (name : String) {judgement : Classified Core}
    (hjudgement : judgement.CoveredBy outer) :
    CoversMembers outer (ctx.bind name judgement) (.insert earlier name judgement.term) where
  base := h.base
  whole := h.whole.bindValue name
    ⟨hjudgement.1.extend h.extend, hjudgement.2.extend h.extend⟩
  extend := h.extend.bind name judgement
  values := h.values.bind hjudgement.2
  images x hx := by
    rw [Substitution.image_insert]
    split
    · exact hjudgement.2
    · rename_i hne
      exact h.images x ((maps_bind.mp hx).resolve_left hne)

/-- A member, with the values of the members before it put in. -/
theorem covers_substitute (h : CoversMembers outer ctx earlier) {t member : Core}
    (hmember : (Move.substitute earlier t member).Computed fuel) (ht : ctx.Covers t) :
    outer.Covers member :=
  hmember.covers_substitute h.base.anonymous fun y hy ↦ h.images y (ht y hy)

end Ctx.CoversMembers

/-! ### Derivations -/

mutual

theorem Infers.covered {fuel : Nat} {moves : List Move} {ctx : Ctx} {t : Term}
    {found : Classified Core} : Infers moves ctx t found → (∀ m ∈ moves, m.Computed fuel) →
      ctx.Whole → found.CoveredBy ctx
  | .univ rank, _, _ => ⟨Ctx.covers_univ _, Ctx.covers_univ rank⟩
  | .var hget, _, h =>
    ⟨(h.judgements _ _ hget).1, Ctx.covers_var_iff.mpr (Option.isSome_iff_exists.mpr ⟨_, hget⟩)⟩
  | .typedLam _ htype hbody hparam hfunction, hm, h => by
    simp only [List.forall_mem_append, List.forall_mem_cons] at hm
    obtain ⟨⟨hmtype, hmbody⟩, -, hnormal, -⟩ := hm
    have hdomain := htype.covers hmtype h
    obtain ⟨hfoundType, hfoundTerm⟩ := hbody.covered hmbody (h.bindDeclared hdomain)
    have hbodyType := hnormal.covers_normalize hfoundType (h.bindDeclared hdomain).resolvesWithin
    refine ⟨hdomain.arrow fun x hx ↦ ?_, ?_⟩
    · refine (Ctx.covers_bind_iff.mp hbodyType x hx).resolve_left ?_
      rintro rfl
      rw [(Core.occursFree_iff_mem _ _).mpr hx] at hparam
      cases hparam
    · exact Ctx.Covers.of_unstamped_eq ((Ctx.covers_lam_iff _).mpr hfoundTerm) hfunction
  | .app _ _ hfunction hargument, hm, h => by
    simp only [List.forall_mem_append, List.forall_mem_cons] at hm
    obtain ⟨⟨hmfunction, hmargument⟩, hnormal, hrange, hresult, -⟩ := hm
    obtain ⟨hfunctionType, hfunctionTerm⟩ := hfunction.covered hmfunction h
    have htype := hnormal.covers_normalize hfunctionType h.resolvesWithin
    obtain ⟨hdomain, hcodomain⟩ := (Ctx.covers_quant_iff default).mp htype
    have hoperand := hargument.covers hmargument h hdomain
    have hrange := hrange.covers_single h hcodomain hoperand
    exact ⟨hresult.covers_normalize hrange h.resolvesWithin,
      Ctx.covers_app_iff.mpr ⟨htype, hfunctionTerm, hoperand⟩⟩
  | .appliedLam hbinds, hm, h => hbinds.covered hm h (by simp)
  | .quantUnbounded _ hquantifies, hm, h => by
    obtain ⟨⟨_, hrank⟩, hterm⟩ := hquantifies.isType hm h (Ctx.covers_univ 0)
    exact ⟨hrank ▸ Ctx.covers_univ _, hterm⟩
  | .quantType _ htype hquantifies, hm, h => by
    obtain ⟨hmtype, hmbody⟩ := List.forall_mem_append.mp hm
    obtain ⟨⟨_, hrank⟩, hterm⟩ := hquantifies.isType hmbody h (htype.covers hmtype h)
    exact ⟨hrank ▸ Ctx.covers_univ _, hterm⟩
  | .quantClass _ hcls hquantifies, hm, h => by
    simp only [List.forall_mem_append, List.forall_mem_cons] at hm
    obtain ⟨⟨hmcls, hmquantifies⟩, htype, hoperator, -⟩ := hm
    obtain ⟨hclsType, hclsTerm⟩ := hcls.covered hmcls h
    have htype := htype.covers_normalize hclsType h.resolvesWithin
    have hoperator := hoperator.covers_normalize hclsTerm h.resolvesWithin
    have hdomain := ((Ctx.covers_quant_iff default).mp htype).1
    obtain ⟨⟨_, hrank⟩, hrange⟩ := hquantifies.isType hmquantifies (h.bindDeclared hdomain)
      (htype.app_declared hoperator)
    exact ⟨hrank ▸ Ctx.covers_univ _, (Ctx.covers_quant_iff _).mpr ⟨hdomain, hrange⟩⟩
  | .signature htypes, hm, h => ⟨Ctx.covers_univ _, htypes.covers hm h⟩
  | .record hmembers, hm, h => hmembers.covers hm (.start h)
  | .access _ hoperator hmember, hm, h => by
    simp only [List.forall_mem_append, List.forall_mem_cons] at hm
    obtain ⟨hmoperator, hnormal, hsubst, hresult, -⟩ := hm
    obtain ⟨hfoundType, hfoundTerm⟩ := hoperator.covered hmoperator h
    have htypes := hnormal.covers_normalize hfoundType h.resolvesWithin
    have himages := hmember.covers ⟨htypes, hfoundTerm⟩
      fun y hy ↦ Ctx.covers_var_iff.mpr (htypes y hy)
    have hmemberType := hsubst.covers_substitute h.anonymous himages
    exact ⟨hresult.covers_normalize hmemberType h.resolvesWithin,
      Ctx.covers_proj_iff.mpr ⟨htypes, hfoundTerm⟩⟩
  | .anno htype hterm, hm, h => by
    obtain ⟨hmtype, hmterm⟩ := List.forall_mem_append.mp hm
    have hdomain := htype.covers hmtype h
    exact ⟨hdomain, hterm.covers hmterm h hdomain⟩
  | .letIn hbinds, hm, h => hbinds.covered hm h (by simp)
  | .literal hliteral, _, h => by
    cases hliteral with
    | int n => exact ⟨Ctx.covers_var_iff.mpr h.int, Ctx.covers_const _⟩
    | string s => exact ⟨Ctx.covers_var_iff.mpr h.string, Ctx.covers_const _⟩
  | .typeOf hterm, hm, h => ⟨Ctx.covers_univ _, (hterm.covered hm h).1⟩

theorem Checks.covers {fuel : Nat} {moves : List Move} {ctx : Ctx} {t : Term}
    {expected : Classified Core} {elaborated : Core} : Checks moves ctx t expected elaborated →
      (∀ m ∈ moves, m.Computed fuel) → ctx.Whole → ctx.Covers expected.term → ctx.Covers elaborated
  | .univ rank, _, _, _ => Ctx.covers_univ rank
  | .lam hlambda, hm, h, hexpected => hlambda.covers hm h hexpected
  | .typedLam _ _ hlambda, hm, h, hexpected => by
    simp only [List.forall_mem_append] at hm
    exact hlambda.covers hm.1.2 h hexpected
  | .appliedLambda _ hargument _ hfunction, hm, h, hexpected => by
    simp only [List.forall_mem_append] at hm
    obtain ⟨hfoundType, hfoundTerm⟩ := hargument.covered hm.1.1 h
    exact Ctx.covers_app_iff.mpr ⟨hfoundType.arrow hexpected,
      hfunction.covers hm.1.2 h (hfoundType.arrow hexpected), hfoundTerm⟩
  | .record hmembers, hm, h, hexpected => by
    simp only [List.forall_mem_append, List.forall_mem_cons] at hm
    have htypes := hm.2.1.covers_normalize hexpected h.resolvesWithin
    exact hmembers.covers hm.1 (.start h) htypes
  | .anno _ _ hterm, hm, h, hexpected => by
    simp only [List.forall_mem_append] at hm
    exact hterm.covers hm.1.2 h hexpected
  | .letIn hbinds, hm, h, hexpected => (hbinds.covered hm h (by simpa using hexpected)).2
  | .inferred _ hinfers _ _, hm, h, _ => by
    simp only [List.forall_mem_append] at hm
    exact (hinfers.covered hm.1 h).2

theorem InfersType.covers {fuel : Nat} {moves : List Move} {ctx : Ctx} {t : Term} {rank : Nat}
    {domain : Core} : InfersType moves ctx t rank domain → (∀ m ∈ moves, m.Computed fuel) →
      ctx.Whole → ctx.Covers domain
  | .mk hinfers, hm, h => by
    simp only [List.forall_mem_append, List.forall_mem_cons] at hm
    obtain ⟨hminfers, -, hterm, -⟩ := hm
    exact hterm.covers_normalize (hinfers.covered hminfers h).2 h.resolvesWithin

theorem Ensures.covered {fuel : Nat} {moves : List Move} {ctx : Ctx} {t : Term}
    {expected : Option (Classified Core)} {found : Classified Core} :
    Ensures moves ctx t expected found → (∀ m ∈ moves, m.Computed fuel) → ctx.Whole →
      (∀ judgement ∈ expected, ctx.Covers judgement.term) → found.CoveredBy ctx
  | .infer hinfers, hm, h, _ => hinfers.covered hm h
  | .check _ hchecks, hm, h, hexpected =>
    have hterm := hexpected _ rfl
    ⟨hterm, hchecks.covers hm h hterm⟩

theorem Binds.covered {fuel : Nat} {moves : List Move} {ctx : Ctx} {name : String}
    {definition body : Term} {expected : Option (Classified Core)} {found : Classified Core} :
    Binds moves ctx name definition body expected found → (∀ m ∈ moves, m.Computed fuel) →
      ctx.Whole → (∀ judgement ∈ expected, ctx.Covers judgement.term) → found.CoveredBy ctx
  | .mk _ hdefinition hbody hfunction, hm, h, hexpected => by
    simp only [List.forall_mem_append, List.forall_mem_cons] at hm
    obtain ⟨⟨hmdefinition, hmbody⟩, htype, hterm, -, hresult, -⟩ := hm
    obtain ⟨hdefinedType, hdefinedTerm⟩ := hdefinition.covered hmdefinition h
    have htype := htype.covers_normalize hdefinedType h.resolvesWithin
    have hterm := hterm.covers_normalize hdefinedTerm h.resolvesWithin
    obtain ⟨helaboratedType, helaboratedTerm⟩ := hbody.covered hmbody
      (h.bindValue name ⟨htype, hterm⟩) fun judgement hmem ↦ (hexpected judgement hmem).bind _ _
    have hresult := hresult.covers_normalize helaboratedType (h.resolvesWithin.bind hterm)
    have hfunction := Ctx.Covers.of_unstamped_eq
      ((Ctx.covers_lam_iff _).mpr helaboratedTerm) hfunction
    exact ⟨hresult, Ctx.covers_app_iff.mpr ⟨hdefinedType.arrow hresult, hfunction, hdefinedTerm⟩⟩

theorem ChecksLambda.covers {fuel : Nat} {moves : List Move} {ctx : Ctx} {param : String}
    {body : Term} {expected : Classified Core} {rank : Nat} {domain function : Core} :
    ChecksLambda moves ctx param body expected rank domain function →
      (∀ m ∈ moves, m.Computed fuel) → ctx.Whole → ctx.Covers expected.term → ctx.Covers function
  | .mk name codomain _ hbody hfunction, hm, h, hexpected => by
    simp only [List.forall_mem_append, List.forall_mem_cons] at hm
    obtain ⟨hmbody, hnormal, -, hrange, -⟩ := hm
    have htype := hnormal.covers_normalize hexpected h.resolvesWithin
    obtain ⟨hdomain, hcodomain⟩ := (Ctx.covers_quant_iff default).mp htype
    have hinner : (ctx.bindDeclared ⟨rank, domain, param⟩).Whole := h.bindDeclared hdomain
    have hcodomain : ((ctx.bindDeclared ⟨rank, domain, param⟩).bind name default).Covers codomain :=
      Ctx.covers_bind_iff.mpr fun x hx ↦
        (Ctx.covers_bind_iff.mp hcodomain x hx).imp_right fun hmaps ↦
          Ctx.maps_bind.mpr (.inr hmaps)
    have hrange := hrange.covers_single hinner hcodomain
      (Ctx.covers_var_iff.mpr (Ctx.maps_bind.mpr (.inl rfl)))
    exact Ctx.Covers.of_unstamped_eq
      ((Ctx.covers_lam_iff _).mpr (hbody.covers hmbody hinner hrange)) hfunction

theorem Quantifies.isType {fuel : Nat} {moves : List Move} {ctx : Ctx} {polarity : Polarity}
    {binder : Classified String} {body : Term} {found : Classified Core} :
    Quantifies moves ctx polarity binder body found → (∀ m ∈ moves, m.Computed fuel) → ctx.Whole →
      ctx.Covers binder.type → (∃ rank, found.type = .univ rank) ∧ ctx.Covers found.term
  | .mk hbody hrank, hm, h, hdomain => by
    obtain ⟨hmbody, -⟩ := List.forall_mem_append.mp hm
    obtain ⟨-, hrange⟩ := hbody.covered hmbody (h.bindDeclared hdomain)
    exact ⟨⟨_, hrank⟩, (Ctx.covers_quant_iff _).mpr ⟨hdomain, hrange⟩⟩

theorem InfersTelescope.covers {fuel : Nat} {moves : List Move} {ctx : Ctx} {fields : Fields}
    {rank : Nat} {types : Telescope} : InfersTelescope moves ctx fields rank types →
      (∀ m ∈ moves, m.Computed fuel) → ctx.Whole → ctx.Covers (.signature types)
  | .nil, _, _ => by simp [Ctx.Covers, Core.freeNames, Telescope.freeNames]
  | .cons _ htype hrest, hm, h => by
    simp only [List.forall_mem_append] at hm
    have hdomain := htype.covers hm.1.1 h
    exact (Ctx.covers_signature_cons_iff _).mpr
      ⟨hdomain, hrest.covers hm.1.2 (h.bindDeclared hdomain)⟩

theorem InfersMembers.covers {fuel : Nat} {moves : List Move} {outer ctx : Ctx}
    {earlier : Substitution} {fields : Fields} {rank : Nat} {types : Telescope}
    {members : List Core} : InfersMembers moves ctx earlier fields rank types members →
      (∀ m ∈ moves, m.Computed fuel) → outer.CoversMembers ctx earlier →
      outer.Covers (.signature types) ∧ outer.Covers (.record members)
  | .nil, _, _ => by
    simp [Ctx.Covers, Core.freeNames, Telescope.freeNames, Core.freeNamesMembers]
  | .cons _ hbody hrest, hm, h => by
    simp only [List.forall_mem_append, List.forall_mem_cons] at hm
    obtain ⟨⟨hmbody, hmrest⟩, htype, hterm, hmember, -⟩ := hm
    obtain ⟨hdefinedType, hdefinedTerm⟩ := hbody.covered hmbody h.whole
    have htype := htype.covers_normalize hdefinedType h.values
    have hterm := hterm.covers_normalize hdefinedTerm h.values
    obtain ⟨htypes, hmembers⟩ := hrest.covers hmrest (h.bind _ ⟨htype, hterm⟩)
    exact ⟨(Ctx.covers_signature_cons_iff default).mpr ⟨htype, htypes.bind _ _⟩,
      Ctx.covers_record_cons_iff.mpr ⟨h.covers_substitute hmember hdefinedTerm, hmembers⟩⟩

theorem ChecksMembers.covers {fuel : Nat} {moves : List Move} {outer ctx : Ctx}
    {earlier : Substitution} {fields : Fields} {types : Telescope} {members : List Core} :
    ChecksMembers moves ctx earlier fields types members → (∀ m ∈ moves, m.Computed fuel) →
      outer.CoversMembers ctx earlier → ctx.Covers (.signature types) →
      outer.Covers (.record members)
  | .nil, _, _, _ => by simp [Ctx.Covers, Core.freeNames, Core.freeNamesMembers]
  | .cons _ hbody hrest, hm, h, htypes => by
    simp only [List.forall_mem_append, List.forall_mem_cons] at hm
    obtain ⟨⟨hmbody, hmrest⟩, -, hexpected, hvalueType, hvalue, hmember, -⟩ := hm
    obtain ⟨htype, htypes⟩ := (Ctx.covers_signature_cons_iff _).mp htypes
    have hexpected := hexpected.covers_normalize htype h.whole.resolvesWithin
    have helaborated := hbody.covers hmbody h.whole hexpected
    have hvalueType := hvalueType.covers_normalize hexpected h.values
    have hvalue := hvalue.covers_normalize helaborated h.values
    exact Ctx.covers_record_cons_iff.mpr ⟨h.covers_substitute hmember helaborated,
      hrest.covers hmrest (h.bind _ ⟨hvalueType, hvalue⟩) htypes⟩

end

/-- What is inferred for a program is about names of the context. -/
theorem Term.elaboration_covered {σ κ : Type} {host : Host σ κ} {ctx : Ctx} (hctx : ctx.Whole)
    {p : Term} (hp : ∀ m ∈ p.mentions, m.Derives host) :
    (p.infer host ctx).Yields fun found ↦ found.CoveredBy ctx :=
  (Term.yields_derivable hp ctx).mono fun _ ⟨_, hinfers, hm⟩ ↦ hinfers.covered hm hctx

end RankedTT
