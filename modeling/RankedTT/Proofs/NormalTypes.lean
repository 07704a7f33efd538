import RankedTT.Proofs.RedexFree
import RankedTT.Proofs.WellScoped

/-!
Inferred types are in normal form. A term is settled in a context if it has no redex and every free
name of it is bound there to itself, so that no definition is left to be put in. A context is normal
if the types and the values of its names are settled. Normalizing a term in the scope of a normal
context settles it, and every rule that infers a type either normalizes it or reads it off a
universe, a binding, a constant or an import. So the rule for quantifiers may look at the head of
the type of the codomain without normalizing it first.
-/

set_option autoImplicit false
set_option relaxedAutoImplicit false

namespace RankedTT

open Run

variable {σ κ : Type}

/-! ### Settled terms -/

/-- The term has no redex, every free name is bound to itself, and no variable is anonymous. -/
structure Ctx.Settles (ctx : Ctx) (t : Core) : Prop where
  redexFree : t.isRedexFree = true
  itself : ∀ x, t.occursFree x = true → Env.get? ctx.values x = some (.var x)
  named : (.reference, anonymous) ∉ t.names

/-- The types and the values that names stand for are settled. Nothing is asked of the anonymous
name. -/
def Ctx.Normal (ctx : Ctx) : Prop :=
  ∀ x judgement, x ≠ anonymous → Env.get? ctx.vars x = some judgement →
    ctx.Settles judgement.type ∧ ctx.Settles judgement.term

/-- The values of the names in `ctx` are settled in `base`. -/
def Ctx.SettlesIn (ctx base : Ctx) : Prop :=
  ∀ x, ctx.maps x = true → x ≠ anonymous → base.Settles (NormEnv.image ctx.values x)

namespace Ctx

variable {ctx base : Ctx}

theorem settles_iff {t : Core} :
    ctx.Settles t ↔ t.isRedexFree = true ∧
      (∀ x ∈ t.freeNames, Env.get? ctx.values x = some (.var x)) ∧
        (.reference, anonymous) ∉ t.names := by
  constructor
  · intro h
    exact ⟨h.redexFree, fun x hx ↦ h.itself x ((Core.occursFree_iff_mem x t).mpr hx), h.named⟩
  · intro h
    exact ⟨h.1, fun x hx ↦ h.2.1 x ((Core.occursFree_iff_mem x t).mp hx), h.2.2⟩

theorem maps_of_get?_values {x : String} {value : Core}
    (h : Env.get? ctx.values x = some value) : ctx.maps x = true := by
  rw [get?_values, Option.map_eq_some_iff] at h
  obtain ⟨judgement, hget, -⟩ := h
  rw [maps, Env.maps, hget]
  rfl

theorem Settles.scopes {t : Core} (h : ctx.Settles t) : ctx.Scopes t :=
  ⟨fun x hx ↦ maps_of_get?_values (h.itself x hx), h.named⟩

@[simp]
theorem settles_univ (rank : Nat) : ctx.Settles (.univ rank) := by
  simp [settles_iff, Core.isRedexFree, Core.freeNames, Core.names]

/-- A function type whose codomain does not mention the operand. -/
theorem Settles.arrow {polarity : Polarity} {declared : Classified String} {codomain : Core}
    (hdomain : ctx.Settles declared.type) (hcodomain : ctx.Settles codomain) :
    ctx.Settles (Core.quantify polarity declared codomain) := by
  rw [settles_iff] at hdomain hcodomain ⊢
  simp only [Core.quantify, Core.isRedexFree, Core.freeNames, Core.names, Bool.and_eq_true,
    List.mem_append, List.mem_filter, List.mem_cons, not_or]
  refine ⟨⟨hdomain.1, hcodomain.1⟩, fun x hx ↦ ?_, hdomain.2.2, by simp, hcodomain.2.2⟩
  exact hx.elim (hdomain.2.1 x) fun hx ↦ hcodomain.2.1 x hx.1

theorem settles_signature_nil : ctx.Settles (.signature .nil) := by
  simp [settles_iff, Core.isRedexFree, Telescope.isRedexFree, Core.freeNames,
    Telescope.freeNames, Core.names, Telescope.names]

theorem Settles.signature_cons {rank : Nat} {type : Core} {name : String} {rest : Telescope}
    (htype : ctx.Settles type) (hrest : ctx.Settles (.signature rest)) :
    ctx.Settles (.signature (.cons rank type name rest)) := by
  rw [settles_iff] at htype hrest ⊢
  simp only [Core.isRedexFree, Telescope.isRedexFree, Core.freeNames, Telescope.freeNames,
    Core.names, Telescope.names, Bool.and_eq_true, List.mem_append, List.mem_filter,
    List.mem_cons, not_or] at hrest ⊢
  refine ⟨⟨htype.1, hrest.1⟩, fun x hx ↦ ?_, htype.2.2, by simp, hrest.2.2⟩
  exact hx.elim (htype.2.1 x) fun hx ↦ hrest.2.1 x hx.1

theorem settles_assignStamps_iff {t : Core} {next : Nat} :
    ctx.Settles (t.assignStamps next).1 ↔ ctx.Settles t := by
  simp [settles_iff]

theorem get?_values_bind_of_ne {name x : String} {judgement : Classified Core} (h : x ≠ name) :
    Env.get? (ctx.bind name judgement).values x = Env.get? ctx.values x :=
  Env.get?_push_of_ne ctx.values judgement.term h

/-- What does not mention a name is as settled with the name as without it. -/
theorem settles_bind_iff {name : String} {judgement : Classified Core} {t : Core}
    (h : t.occursFree name = false) : (ctx.bind name judgement).Settles t ↔ ctx.Settles t := by
  have hne {x : String} (hx : t.occursFree x = true) : x ≠ name := by
    rintro rfl
    rw [h] at hx
    simp at hx
  constructor
  · intro ht
    refine ⟨ht.redexFree, fun x hx ↦ ?_, ht.named⟩
    rw [← get?_values_bind_of_ne (hne hx)]
    exact ht.itself x hx
  · intro ht
    refine ⟨ht.redexFree, fun x hx ↦ ?_, ht.named⟩
    rw [get?_values_bind_of_ne (hne hx)]
    exact ht.itself x hx

theorem Settles.bind {t : Core} (h : ctx.Settles t) {name : String}
    (hfresh : ctx.isFresh name = true) (judgement : Classified Core) :
    (ctx.bind name judgement).Settles t := by
  refine (settles_bind_iff ?_).mpr h
  by_contra hoccurs
  rw [Bool.not_eq_false] at hoccurs
  by_cases hname : name = anonymous
  · subst hname
    exact h.named (t.mem_names_of_mem_freeNames ((Core.occursFree_iff_mem _ t).mp hoccurs))
  · exact ne_of_isFresh hfresh hname (h.scopes.bound name hoccurs) rfl

/-- A normal form is settled wherever the values of the names are. -/
theorem Settles.normalizes {t n : Core} {c c' : Nat} (h : t.Normalizes ctx.values c n c')
    (ht : ctx.Scopes t) (hvalues : ctx.SettlesIn base) : base.Settles n := by
  have hscopes : base.Scopes n := .normalizes h ht fun x hx hname ↦ (hvalues x hx hname).scopes
  refine settles_iff.mpr ⟨h.isRedexFree fun x hx ↦ ?_, fun x hx ↦ ?_, hscopes.named⟩
  · by_cases hmaps : ctx.maps x = true
    · refine (hvalues x hmaps ?_).redexFree
      rintro rfl
      exact ht.named hx
    · have hnone : Env.get? ctx.vars x = none := by simpa [maps, Env.maps] using hmaps
      rw [image_values_of_unbound hnone]
      rfl
  · obtain ⟨y, hy, hx⟩ := h.mem_freeNames hx
    obtain ⟨hmaps, hname⟩ := scopes_var_iff.mp (ht.var hy)
    exact (settles_iff.mp (hvalues y hmaps hname)).2.1 x hx

/-- Normalizing a settled term leaves its head as it is. -/
theorem Settles.sameHead {t n : Core} (h : ctx.Settles t) {fuel : Nat}
    (hn : t.normalForm fuel ctx.values = .ok n) : t.SameHead n := by
  obtain ⟨c, hc⟩ := Core.normalizes_of_normalForm hn
  refine hc.sameHead h.redexFree fun x hx ↦ ?_
  rw [NormEnv.image, (settles_iff.mp h).2.1 x hx]
  rfl

/-! ### Normal contexts -/

theorem Normal.scopesNames (h : ctx.Normal) : ctx.ScopesNames :=
  fun x judgement hx hget ↦
    ⟨(h x judgement hx hget).1.scopes, (h x judgement hx hget).2.scopes⟩

theorem Normal.settlesIn (h : ctx.Normal) : ctx.SettlesIn ctx := by
  intro x hx hname
  obtain ⟨judgement, hget⟩ := Option.isSome_iff_exists.mp hx
  rw [image_values_of_get? hget]
  exact (h x judgement hname hget).2

/-- A declared name stands for itself. An instance of a class is bound to the anonymous name, and
its type need not be settled. -/
theorem Normal.bindDeclared (h : ctx.Normal) {declared : Classified String}
    (hfresh : ctx.isFresh declared.term = true)
    (htype : declared.term ≠ anonymous → ctx.Settles declared.type) :
    (ctx.bindDeclared declared).Normal := by
  intro x judgement hx hget
  by_cases hname : x = declared.term
  · rw [hname] at hx hget
    obtain rfl : declared.asVariable = judgement := by
      simpa [Ctx.bindDeclared, Ctx.bind] using hget
    refine ⟨(htype hx).bind hfresh _, settles_iff.mpr ⟨rfl, fun y hy ↦ ?_, ?_⟩⟩
    · obtain rfl : y = declared.term := by simpa [Classified.asVariable, Classified.withTerm,
        Core.freeNames] using hy
      rw [get?_values, Ctx.bindDeclared, Ctx.bind, Env.get?_push_self]
      rfl
    · simpa [Classified.asVariable, Classified.withTerm, Core.names] using Ne.symm hx
  · rw [Ctx.bindDeclared, Ctx.bind, Env.get?_push_of_ne _ _ hname] at hget
    obtain ⟨htype, hterm⟩ := h x judgement hx hget
    exact ⟨htype.bind hfresh _, hterm.bind hfresh _⟩

theorem SettlesIn.bind (h : ctx.SettlesIn base) {name : String} {judgement : Classified Core}
    (hterm : base.Settles judgement.term) : (ctx.bind name judgement).SettlesIn base := by
  intro x hx hname
  rw [image_values_bind]
  split
  · exact hterm
  · rename_i hne
    exact h x ((maps_bind.mp hx).resolve_left hne) hname

end Ctx

/-! ### The steps of the typing rules -/

section Steps

variable {ctx base : Ctx} {fuel : Nat} {rule : Judged σ κ}

theorem Check.settles_normalize {t : Core} (hvalues : ctx.SettlesIn base) (ht : ctx.Scopes t) :
    (Check.normalize fuel ctx t : Check σ κ Core).Yields base.Settles := by
  refine (Check.yields_ofNormalizer (P := base.Settles) fun n hn ↦ ?_).bind
    fun n hn s m s' hm ↦ ?_
  · obtain ⟨c, hc⟩ := Core.normalizes_of_normalForm hn
    exact .normalizes hc ht hvalues
  · obtain ⟨rfl, -⟩ := Prod.mk.inj (returns_modifyGet_iff.mp hm)
    exact Ctx.settles_assignStamps_iff.mpr hn

theorem Check.settles_normalized {judgement : Classified Core} (hvalues : ctx.SettlesIn base)
    (h : Check.Scoped ctx judgement) :
    (Check.normalized fuel ctx judgement : Check σ κ (Classified Core)).Yields fun value ↦
      base.Settles value.type ∧ base.Settles value.term := by
  refine (Check.settles_normalize hvalues h.1).bind fun type htype ↦ ?_
  refine (Check.settles_normalize hvalues h.2).bind fun term hterm ↦ ?_
  exact .pure ⟨htype, hterm⟩

theorem Judged.WellScoped.declare_settles (h : rule.WellScoped base) (hctx : ctx.Normal)
    (hext : ctx.Extends base) (name : String) :
    (rule.declare fuel ctx name).Yields fun declared ↦
      declared.term = name ∧ ctx.Settles declared.type := by
  refine (h.infer ctx hctx.scopesNames hext).bind fun found hfound ↦ ?_
  refine (Check.settles_normalized hctx.settlesIn hfound).bind fun judgement hjudgement ↦ ?_
  refine .ofOption fun declared hdeclared ↦ ?_
  obtain ⟨_, -, rfl⟩ := Classified.inhabitant?_eq_some_iff.mp hdeclared
  exact ⟨rfl, hjudgement.2⟩

end Steps

/-! ### Functions -/

section Functions

variable {base ctx : Ctx} {fuel : Nat} {self : Term} {name param : String}
  {definition body operator argument : Judged σ κ}

/-- The result is normalized where the bound name stands for its value. -/
theorem elaborateLet_settles (hdefinition : definition.WellScoped base)
    (hbody : body.WellScoped base) (hctx : ctx.Normal) (hext : ctx.Extends base) :
    (elaborateLet fuel name definition body none ctx).Yields fun found ↦
      ctx.Settles found.type := by
  unfold elaborateLet
  refine .bind_any fun _ ↦ ?_
  refine (hdefinition.infer ctx hctx.scopesNames hext).bind fun defined hdefined ↦ ?_
  refine (Check.settles_normalized hctx.settlesIn hdefined).bind fun value hvalue ↦ ?_
  have hinner := hctx.scopesNames.bind_value name hvalue.1.scopes hvalue.2.scopes
  refine (hbody.ensure hinner (hext.bind name value) (by simp)).bind fun elaborated hel ↦ ?_
  refine (Check.settles_normalize (hctx.settlesIn.bind hvalue.2) hel.1).bind fun result hresult ↦ ?_
  exact .bind_any fun _ ↦ .pure hresult

/-- The return type does not mention the parameter, so it is settled outside. -/
theorem typedLambdaRule_settles {type : Judged σ κ} (htype : type.WellScoped base)
    (hbody : body.WellScoped base) (hctx : ctx.Normal) (hext : ctx.Extends base) :
    ((typedLambdaRule fuel self param type body).infer ctx).Yields fun found ↦
      ctx.Settles found.type := by
  unfold typedLambdaRule
  refine Check.yields_ensureFresh.bind fun _ hfresh ↦ ?_
  refine (htype.declare_settles hctx hext param).bind fun declared ⟨hname, hdeclared⟩ ↦ ?_
  subst hname
  have hinner := hctx.bindDeclared hfresh fun _ ↦ hdeclared
  refine (hbody.infer _ hinner.scopesNames (hext.bind _ _)).bind fun found hfound ↦ ?_
  refine (Check.settles_normalize hinner.settlesIn hfound.1).bind fun bodyType hbodyType ↦ ?_
  dsimp only
  split
  · exact .bind (P := fun _ ↦ False) .fail fun _ h ↦ h.elim
  · rename_i hfree
    have hbodyType : ctx.Settles bodyType :=
      (Ctx.settles_bind_iff (by simpa using hfree)).mp hbodyType
    exact .bind_any fun _ ↦ .pure (.arrow hdeclared hbodyType)

theorem inferApplication_settles (hoperator : operator.WellScoped base)
    (hargument : argument.WellScoped base) (hctx : ctx.Normal) (hext : ctx.Extends base) :
    (inferApplication fuel self operator argument ctx).Yields fun found ↦
      ctx.Settles found.type := by
  have hclosed := hctx.scopesNames
  unfold inferApplication
  refine (hoperator.infer ctx hclosed hext).bind fun function hfunction ↦ ?_
  refine (Check.yields_normalize hclosed.resolvesIn hfunction.1).bind fun type htype ↦ ?_
  split
  · rename_i rank domain name codomain
    obtain ⟨hdomain, hcodomain⟩ := (Ctx.scopes_quant_iff function).mp htype
    refine (hargument.check ctx hclosed hext ⟨rank + 1, .univ rank, domain⟩ hdomain).bind
      fun operand hoperand ↦ ?_
    have hresult := hcodomain.applied hoperand
    refine (Check.settles_normalize hctx.settlesIn hresult).bind fun result hresult ↦ ?_
    exact .pure hresult
  · exact .fail
  · exact .fail

end Functions

/-! ### Quantifiers and records -/

section Types

variable {base ctx outer : Ctx} {fuel : Nat} {polarity : Polarity}
  {members : List (String × Judged σ κ)}

/-- Quantifiers and record types have universes as types. -/
theorem Classified.IsScopedType.settles {judgement : Classified Core}
    (h : judgement.IsScopedType ctx) : ctx.Settles judgement.type := by
  obtain ⟨⟨rank, htype⟩, -⟩ := h
  rw [htype]
  exact Ctx.settles_univ rank

/-- The types of the members are normalized where the earlier members stand for their values. -/
theorem inferMembers_settles {earlier : Substitution} (h : MemberScope outer ctx earlier)
    (hvalues : ctx.SettlesIn outer) (hext : ctx.Extends base)
    (hmembers : ∀ member ∈ members, member.2.WellScoped base) :
    (inferMembers fuel ctx earlier members).Yields fun found ↦
      outer.Settles (.signature found.2.1) := by
  induction members generalizing ctx earlier with
  | nil => exact .pure Ctx.settles_signature_nil
  | cons member members ih =>
    obtain ⟨hmember, hmembers⟩ := List.forall_mem_cons.mp hmembers
    refine .bind_any fun _ ↦ ?_
    refine (hmember.infer ctx h.closed hext).bind fun defined hdefined ↦ ?_
    refine (Check.settles_normalized hvalues hdefined).bind fun value hvalue ↦ ?_
    refine .bind_any fun _ ↦ ?_
    have hinner := h.bind member.1 ⟨hvalue.1.scopes, hvalue.2.scopes⟩
    refine (ih hinner (hvalues.bind hvalue.2) (hext.bind _ _) hmembers).bind fun rest hrest ↦ ?_
    exact .pure (hvalue.1.signature_cons hrest)

theorem inferAccess_settles {operator : Judged σ κ} {name : String}
    (hoperator : operator.WellScoped base) (hctx : ctx.Normal) (hext : ctx.Extends base) :
    (inferAccess fuel operator name ctx).Yields fun found ↦ ctx.Settles found.type := by
  have hclosed := hctx.scopesNames
  refine (hoperator.infer ctx hclosed hext).bind fun found hfound ↦ ?_
  refine (Check.yields_normalize hclosed.resolvesIn hfound.1).bind fun type htype ↦ ?_
  split
  · rename_i types
    dsimp only
    split
    · rename_i member hmember
      have hrecord : Check.Scoped ctx ⟨found.rank, .signature types, found.term⟩ :=
        ⟨htype, hfound.2⟩
      have hmemberType : ctx.Scopes member.type := by
        refine findMember?_scopes hrecord htype.named ?_ (by simp) hmember
        intro y hy
        exact htype.var hy
      refine (Check.settles_normalize hctx.settlesIn hmemberType).bind fun type htype ↦ ?_
      exact .pure htype
    · exact .fail
  · exact .fail

end Types

/-! ### All terms -/

/-- No identifier is anonymous, and constants and imports have types that are settled in `base`. -/
def Mention.Settled (host : Host σ κ) (base : Ctx) : Mention → Prop
  | .identifier name => name ≠ anonymous
  | .constant content => base.Settles content.type
  | .imported filename => (host.resolve filename).Yields fun content ↦ base.Settles content.type

theorem Mention.Settled.scoped {host : Host σ κ} {base : Ctx} {m : Mention}
    (h : m.Settled host base) : m.Scoped host base := by
  cases m with
  | identifier name => exact h
  | constant content => exact Ctx.Settles.scopes h
  | imported filename => exact Yields.mono h fun _ hcontent ↦ hcontent.scopes

theorem Mention.Settled.bind {host : Host σ κ} {ctx : Ctx} {m : Mention} (h : m.Settled host ctx)
    {name : String} (hfresh : ctx.isFresh name = true) (judgement : Classified Core) :
    m.Settled host (ctx.bind name judgement) := by
  cases m with
  | identifier name => exact h
  | constant content => exact Ctx.Settles.bind h hfresh judgement
  | imported filename => exact Yields.mono h fun _ hcontent ↦ hcontent.bind hfresh judgement

/-- What is inferred for the parts of a term is in scope, so the type that the rule for the term
itself infers is settled. -/
theorem Term.rule_settles (host : Host σ κ) {ctx : Ctx} (hctx : ctx.Normal) (e : Term)
    (hmentions : ∀ m ∈ e.mentions, m.Settled host ctx) :
    ((e.rule host).infer ctx).Yields fun found ↦ ctx.Settles found.type := by
  have hext := Ctx.Extends.refl ctx
  have hpart (e : Term) (h : ∀ m ∈ e.mentions, m.Settled host ctx) :
      (e.rule host).logged.WellScoped ctx :=
    (e.rule_wellScoped host ctx fun m hm ↦ (h m hm).scoped).logged
  have hparts (fields : Fields) (h : ∀ m ∈ fields.mentions, m.Settled host ctx) :
      ∀ member ∈ fields.judged host, member.2.WellScoped ctx :=
    fields.judged_wellScoped host ctx fun m hm ↦ (h m hm).scoped
  cases e with
  | univ rank => exact .pure (Ctx.settles_univ _)
  | var name =>
    have hname : name ≠ anonymous := hmentions (.identifier name) (by simp [Term.mentions])
    refine Yields.bind (P := fun found ↦ ctx.Settles found.type) (.ofExcept fun found h ↦ ?_)
      fun found hfound ↦ .pure hfound
    exact (hctx name found hname (Ctx.get?_of_lookup h)).1
  | lam param body => exact .fail
  | typedLam param type body =>
    obtain ⟨htype, hbody⟩ := List.forall_mem_append.mp (List.forall_mem_cons.mp hmentions).2
    exact typedLambdaRule_settles (hpart type htype) (hpart body hbody) hctx hext
  | app operator argument =>
    obtain ⟨hoperator, hargument⟩ := List.forall_mem_append.mp hmentions
    have happlication : (inferApplication host.fuel (.app operator argument)
        (operator.rule host).logged (argument.rule host).logged ctx).Yields fun found ↦
          ctx.Settles found.type :=
      inferApplication_settles (hpart operator hoperator) (hpart argument hargument) hctx hext
    cases operator with
    | lam param body =>
      have hbody := hpart body (List.forall_mem_cons.mp hoperator).2
      exact elaborateLet_settles (hpart argument hargument) hbody hctx hext
    | _ => exact happlication
  | quant polarity bound name body =>
    obtain ⟨h, hbody⟩ := List.forall_mem_append.mp hmentions
    obtain ⟨hname, hbound⟩ := List.forall_mem_append.mp h
    refine Yields.mono (bound.inferQuantifier_yields host ctx (fun m hm ↦ (hbound m hm).scoped)
      (hpart body hbody) (fun x hx ↦ ?_) hctx.scopesNames hext) fun found hfound ↦ hfound.settles
    exact hname (.identifier x) (by simpa using hx)
  | signature members => exact .bind_any fun _ ↦ .pure (Ctx.settles_univ _)
  | record members =>
    refine (inferMembers_settles (.start hctx.scopesNames) hctx.settlesIn hext
      (hparts members hmentions)).bind fun found hfound ↦ ?_
    exact .pure hfound
  | access operator name =>
    exact inferAccess_settles (hpart operator (List.forall_mem_cons.mp hmentions).2) hctx hext
  | danglingAccess name => exact .fail
  | generic name bound => exact .fail
  | anno type term =>
    obtain ⟨htype, -⟩ := List.forall_mem_append.mp hmentions
    refine ((hpart type htype).declare_settles hctx hext anonymous).bind
      fun declared hdeclared ↦ ?_
    exact .bind_any fun _ ↦ .pure hdeclared.2
  | letIn name definition body =>
    obtain ⟨hdefinition, hbody⟩ :=
      List.forall_mem_append.mp (List.forall_mem_cons.mp hmentions).2
    exact elaborateLet_settles (hpart definition hdefinition) (hpart body hbody) hctx hext
  | const content => exact .pure (hmentions (.constant content) (by simp [Term.mentions]))
  | typeOf term => exact .bind_any fun _ ↦ .pure (Ctx.settles_univ _)
  | importing filename =>
    have himport : (host.resolve filename).Yields fun content ↦ ctx.Settles content.type :=
      hmentions (.imported filename) (by simp [Term.mentions])
    exact himport.mapError.bind fun content hcontent ↦ .pure hcontent

theorem Term.infer_settles (host : Host σ κ) {ctx : Ctx} (hctx : ctx.Normal) (e : Term)
    (hmentions : ∀ m ∈ e.mentions, m.Settled host ctx) :
    (e.infer host ctx).Yields fun found ↦ ctx.Settles found.type := by
  refine (e.rule_settles host hctx hmentions).bind fun found hfound ↦ ?_
  exact .bind_any fun _ ↦ .pure hfound

/-- A settled type that normalizes to a universe is that universe. -/
theorem Ctx.Settles.eq_univ {ctx : Ctx} {t : Core} (h : ctx.Settles t) {fuel k : Nat}
    (hk : t.normalForm fuel ctx.values = .ok (.univ k)) : t = .univ k := by
  have hhead := h.sameHead hk
  cases hhead
  rfl

/-- The rule for quantifiers accepts a codomain whose type is a universe. -/
theorem quantifyOver_returns {polarity : Polarity} {binder : Classified String}
    {body : Judged σ κ} {ctx : Ctx} {s s' : Progress σ} {range : Classified Core} {k : Nat}
    (hrange : (body.infer (ctx.bindDeclared binder)).Returns s range s')
    (htype : range.type = .univ k) :
    (quantifyOver polarity binder body ctx).Returns s
      (range.map (Core.quantify polarity binder)) s' := by
  refine returns_bind_iff.mpr ⟨range, s', hrange, ?_⟩
  rw [htype]
  exact returns_pure_iff.mpr ⟨rfl, rfl⟩

/-- In a normal context, inferred types are settled: they have no redex and no name with a
definition. So where a quantifier binds a name over a term whose inferred type normalizes to a
universe, that type is a universe as it stands, and the rule accepts the term as codomain. -/
theorem Term.inferred_type_settled (host : Host σ κ) (ctx : Ctx) (e : Term) (hctx : ctx.Normal)
    (hmentions : ∀ m ∈ e.mentions, m.Settled host ctx) :
    ((e.infer host ctx).Yields fun found ↦ ctx.Settles found.type) ∧
      ∀ (polarity : Polarity) (binder : Classified String), ctx.isFresh binder.term = true →
        (binder.term ≠ anonymous → ctx.Settles binder.type) → ∀ s range s',
          (e.infer host (ctx.bindDeclared binder)).Returns s range s' → ∀ fuel k,
            range.type.normalForm fuel (ctx.bindDeclared binder).values = .ok (.univ k) →
              (quantifyOver polarity binder (e.judged host) ctx).Returns s
                (range.map (Core.quantify polarity binder)) s' := by
  refine ⟨e.infer_settles host hctx hmentions, ?_⟩
  intro polarity binder hfresh htype s range s' hrange fuel k hk
  have hinner := hctx.bindDeclared hfresh htype
  have hsettled := e.infer_settles host hinner (fun m hm ↦ (hmentions m hm).bind hfresh _)
    s range s' hrange
  exact quantifyOver_returns hrange (hsettled.eq_univ hk)

/-- The codomain of the quantifier is a let-bound name for a type. -/
theorem Term.inferred_type_settled_let :
    let ctx : Ctx := ⟨[("int", ⟨1, .univ 0, .var "int"⟩)]⟩
    let e : Term := .letIn "T" (.var "int") (.var "T")
    let binder : Classified String := ⟨0, .var "int", "x"⟩
    let host := Host.withoutImports 10
    ctx.Normal ∧ (∀ m ∈ e.mentions, m.Settled host ctx) ∧ ctx.Settles binder.type ∧
      ((e.infer host ctx).Yields fun found ↦ ctx.Settles found.type) ∧
      ∃ range s', (e.infer host (ctx.bindDeclared binder)).Returns ⟨(), .empty⟩ range s' ∧
        (quantifyOver .universal binder (e.judged host) ctx).Returns ⟨(), .empty⟩
          (range.map (Core.quantify .universal binder)) s' := by
  intro ctx e binder host
  have hint : ctx.Settles (.var "int") := by
    refine Ctx.settles_iff.mpr ⟨rfl, fun x hx ↦ ?_, by decide⟩
    obtain rfl := List.mem_singleton.mp hx
    rfl
  have hctx : ctx.Normal := by
    intro x judgement hx hget
    obtain ⟨rfl, rfl⟩ := Prod.mk.inj (List.mem_singleton.mp (Ctx.mem_vars_of_get? hget))
    exact ⟨Ctx.settles_univ 0, hint⟩
  have hmentions : ∀ m ∈ e.mentions, m.Settled host ctx := by
    intro m hm
    simp only [e, Term.mentions, List.cons_append, List.nil_append, List.mem_cons,
      List.not_mem_nil, or_false] at hm
    rcases hm with rfl | rfl | rfl
    · exact (by decide : "T" ≠ anonymous)
    · exact (by decide : "int" ≠ anonymous)
    · exact (by decide : "T" ≠ anonymous)
  have hmain := Term.inferred_type_settled host ctx e hctx hmentions
  have hrange : (e.infer host (ctx.bindDeclared binder)).Returns ⟨(), .empty⟩ _ _ := rfl
  exact ⟨hctx, hmentions, hint, hmain.1, _, _, hrange,
    hmain.2 .universal binder rfl (fun _ ↦ hint) _ _ _ hrange 10 0 rfl⟩

/-- That free names are bound to themselves is not enough. In the context below no type and no value
has a redex or a free name that is not bound to itself, but a quantifier binds a variable that is
anonymous; applying `f` leaves that variable behind, and nothing binds it. -/
theorem Term.anonymous_unsettled :
    let ctx : Ctx :=
      ⟨[("f", ⟨0, .quant .universal 1 (.univ 0) "*" (.var "*"), .var "f"⟩),
        ("int", ⟨1, .univ 0, .var "int"⟩)]⟩
    let e : Term := .app (.var "f") (.var "int")
    (∀ entry ∈ ctx.vars, ∀ t ∈ [entry.2.type, entry.2.term], t.isRedexFree = true ∧
        ∀ x, t.occursFree x = true → Env.get? ctx.values x = some (.var x)) ∧
      (∀ m ∈ e.mentions, m.Settled (Host.withoutImports 10) ctx) ∧
      ∃ found, (e.infer (Host.withoutImports 10) ctx).outcome ⟨(), .empty⟩ = .ok found ∧
        found.type.occursFree anonymous = true ∧ Env.get? ctx.values anonymous = none := by
  intro ctx e
  refine ⟨?_, ?_, _, rfl, rfl, rfl⟩
  · intro entry hentry t ht
    simp only [ctx, List.mem_cons, List.not_mem_nil, or_false] at hentry
    simp only [List.mem_cons, List.not_mem_nil, or_false] at ht
    rcases hentry with rfl | rfl <;> rcases ht with rfl | rfl <;> refine ⟨rfl, fun x hx ↦ ?_⟩ <;>
      simp [Core.occursFree_iff_mem, Core.freeNames] at hx <;> subst hx <;> rfl
  · intro m hm
    simp only [e, Term.mentions, List.cons_append, List.nil_append, List.mem_cons,
      List.not_mem_nil, or_false] at hm
    rcases hm with rfl | rfl
    · exact (by decide : "f" ≠ anonymous)
    · exact (by decide : "int" ≠ anonymous)

end RankedTT
