import RankedTT.Proofs.NormalNames
import RankedTT.Typing.Check

/-!
Scopes of typing contexts. A context scopes a term if it binds every free name of the term and no
variable of the term is anonymous; the anonymous name is for binders that bind nothing, it is never
substituted and never renamed, so a variable of that name would leave its scope. A context is closed
if it scopes the types and the values of its bindings. Substitution, normalization and stamping keep
terms in scope, and the normal form of a term lies in every scope that holds the values of its
names.
-/

set_option autoImplicit false
set_option relaxedAutoImplicit false

namespace RankedTT

open Run

/-- Every free name is bound, and no variable is anonymous. -/
structure Ctx.Scopes (ctx : Ctx) (t : Core) : Prop where
  bound : ∀ x, t.occursFree x = true → ctx.maps x = true
  named : (.reference, anonymous) ∉ t.names

/-- The types and the values of all bindings are in scope. The value of an anonymous binding is
never looked at. -/
def Ctx.Closed (ctx : Ctx) : Prop :=
  ∀ name judgement, (name, judgement) ∈ ctx.vars →
    ctx.Scopes judgement.type ∧ (name ≠ anonymous → ctx.Scopes judgement.term)

/-- The type and the value that a name stands for are in scope. What the anonymous name stands for
is never looked at. -/
def Ctx.ScopesNames (ctx : Ctx) : Prop :=
  ∀ x judgement, x ≠ anonymous → Env.get? ctx.vars x = some judgement →
    ctx.Scopes judgement.type ∧ ctx.Scopes judgement.term

/-- Every name that `base` binds is bound in `ctx`. -/
def Ctx.Extends (ctx base : Ctx) : Prop := ∀ x, base.maps x = true → ctx.maps x = true

/-- The values of the names in `ctx` lie in the scope of `base`. -/
def Ctx.ResolvesIn (ctx base : Ctx) : Prop :=
  ∀ x, ctx.maps x = true → x ≠ anonymous → base.Scopes (NormEnv.image ctx.values x)

namespace Ctx

variable {ctx base : Ctx}

theorem Extends.refl (ctx : Ctx) : ctx.Extends ctx := fun _ h ↦ h

@[simp]
theorem maps_bind {name : String} {judgement : Classified Core} {x : String} :
    (ctx.bind name judgement).maps x = true ↔ x = name ∨ ctx.maps x = true := by
  simp only [maps, bind, NormEnv.maps_iff_mem, Env.push, List.map_cons, List.mem_cons]

theorem Extends.bind (h : ctx.Extends base) (name : String) (judgement : Classified Core) :
    (ctx.bind name judgement).Extends base :=
  fun x hx ↦ maps_bind.mpr (.inr (h x hx))

theorem get?_values (ctx : Ctx) (x : String) :
    Env.get? ctx.values x = (Env.get? ctx.vars x).map Classified.term :=
  Env.get?_mapBindings _ _ x

theorem image_values_of_get? {x : String} {judgement : Classified Core}
    (h : Env.get? ctx.vars x = some judgement) : NormEnv.image ctx.values x = judgement.term := by
  rw [NormEnv.image, get?_values, h]
  rfl

theorem image_values_of_unbound {x : String} (h : Env.get? ctx.vars x = none) :
    NormEnv.image ctx.values x = .var x := by
  rw [NormEnv.image, get?_values, h]
  rfl

theorem image_values_bind (ctx : Ctx) (name : String) (judgement : Classified Core) (x : String) :
    NormEnv.image (ctx.bind name judgement).values x =
      if x = name then judgement.term else NormEnv.image ctx.values x :=
  NormEnv.image_push ctx.values name judgement.term x

/-- A name that is fresh and not anonymous is not bound. -/
theorem ne_of_isFresh {name x : String} (hfresh : ctx.isFresh name = true)
    (hname : name ≠ anonymous) (hx : ctx.maps x = true) : x ≠ name := by
  rintro rfl
  simp [isFresh, hname, hx] at hfresh

/-! ### Terms in scope -/

theorem scopes_iff {t : Core} :
    ctx.Scopes t ↔
      (∀ x ∈ t.freeNames, ctx.maps x = true) ∧ (.reference, anonymous) ∉ t.names := by
  constructor
  · intro h
    exact ⟨fun x hx ↦ h.bound x ((Core.occursFree_iff_mem x t).mpr hx), h.named⟩
  · intro h
    exact ⟨fun x hx ↦ h.1 x ((Core.occursFree_iff_mem x t).mp hx), h.2⟩

theorem Scopes.extend {t : Core} (h : base.Scopes t) (hext : ctx.Extends base) : ctx.Scopes t :=
  ⟨fun x hx ↦ hext x (h.bound x hx), h.named⟩

@[simp]
theorem scopes_univ (rank : Nat) : ctx.Scopes (.univ rank) := by
  simp [scopes_iff, Core.freeNames, Core.names]

@[simp]
theorem scopes_const (value : Value) : ctx.Scopes (.const value) := by
  simp [scopes_iff, Core.freeNames, Core.names]

@[simp]
theorem scopes_var_iff {x : String} : ctx.Scopes (.var x) ↔ ctx.maps x = true ∧ x ≠ anonymous := by
  rw [scopes_iff, ne_comm]
  simp [Core.freeNames, Core.names]

@[simp]
theorem scopes_app_iff {rank : Nat} {type operator operand : Core} :
    ctx.Scopes (.app rank type operator operand) ↔
      ctx.Scopes type ∧ ctx.Scopes operator ∧ ctx.Scopes operand := by
  simp only [scopes_iff, Core.freeNames, Core.names, List.mem_append, or_imp, forall_and, not_or]
  tauto

@[simp]
theorem scopes_proj_iff {rank : Nat} {type operator : Core} {index : Nat} :
    ctx.Scopes (.proj rank type operator index) ↔ ctx.Scopes type ∧ ctx.Scopes operator := by
  simp only [scopes_iff, Core.freeNames, Core.names, List.mem_append, or_imp, forall_and, not_or]
  tauto

/-- What a binder scopes over, whatever the bound name is classified by. -/
theorem scopes_bind_iff {name : String} {judgement : Classified Core} {t : Core} :
    (ctx.bind name judgement).Scopes t ↔
      (∀ x ∈ t.freeNames.filter (· != name), ctx.maps x = true) ∧
        (.reference, anonymous) ∉ t.names := by
  simp only [scopes_iff, maps_bind, List.mem_filter, bne_iff_ne, and_imp]
  refine and_congr_left fun _ ↦ forall₂_congr fun x _ ↦ ?_
  exact or_iff_not_imp_left

theorem Scopes.var {t : Core} (h : ctx.Scopes t) {x : String} (hx : x ∈ t.freeNames) :
    ctx.Scopes (.var x) := by
  refine scopes_var_iff.mpr ⟨(scopes_iff.mp h).1 x hx, ?_⟩
  rintro rfl
  exact h.named (t.mem_names_of_mem_freeNames hx)

/-- The anonymous binder scopes over nothing new. -/
theorem Scopes.of_bind_anonymous {judgement : Classified Core} {t : Core}
    (h : (ctx.bind anonymous judgement).Scopes t) : ctx.Scopes t := by
  refine scopes_iff.mpr ⟨fun x hx ↦ ?_, h.named⟩
  obtain ⟨hmaps, hname⟩ := scopes_var_iff.mp (h.var hx)
  exact (maps_bind.mp hmaps).resolve_left hname

theorem Scopes.bind {t : Core} (h : ctx.Scopes t) (name : String) (judgement : Classified Core) :
    (ctx.bind name judgement).Scopes t :=
  h.extend ((Extends.refl ctx).bind name judgement)

theorem scopes_quant_iff {polarity : Polarity} {rank : Nat} {domain codomain : Core}
    {name : String} (judgement : Classified Core) :
    ctx.Scopes (.quant polarity rank domain name codomain) ↔
      ctx.Scopes domain ∧ (ctx.bind name judgement).Scopes codomain := by
  rw [scopes_bind_iff, scopes_iff, scopes_iff]
  simp only [Core.freeNames, Core.names, List.mem_append, List.mem_cons, or_imp, forall_and, not_or]
  simp only [Prod.mk.injEq, reduceCtorEq, false_and, not_false_eq_true, true_and]
  tauto

theorem scopes_lam_iff {param : String} {stamp : Stamp} {body : Core}
    (judgement : Classified Core) :
    ctx.Scopes (.lam param stamp body) ↔ (ctx.bind param judgement).Scopes body := by
  rw [scopes_bind_iff, scopes_iff]
  simp [Core.freeNames, Core.names]

theorem scopes_record_nil : ctx.Scopes (.record []) := by
  simp [scopes_iff, Core.freeNames, Core.freeNamesMembers, Core.names, Core.namesMembers]

theorem scopes_record_cons_iff {m : Core} {ms : List Core} :
    ctx.Scopes (.record (m :: ms)) ↔ ctx.Scopes m ∧ ctx.Scopes (.record ms) := by
  simp only [scopes_iff, Core.freeNames, Core.freeNamesMembers, Core.names, Core.namesMembers,
    List.mem_append, or_imp, forall_and, not_or]
  tauto

theorem scopes_signature_nil : ctx.Scopes (.signature .nil) := by
  simp [scopes_iff, Core.freeNames, Telescope.freeNames, Core.names, Telescope.names]

theorem scopes_signature_cons_iff {rank : Nat} {type : Core} {name : String} {rest : Telescope}
    (judgement : Classified Core) :
    ctx.Scopes (.signature (.cons rank type name rest)) ↔
      ctx.Scopes type ∧ (ctx.bind name judgement).Scopes (.signature rest) := by
  rw [scopes_bind_iff, scopes_iff, scopes_iff]
  simp only [Core.freeNames, Telescope.freeNames, Core.names, Telescope.names, List.mem_append,
    List.mem_cons, or_imp, forall_and, not_or]
  simp only [Prod.mk.injEq, reduceCtorEq, false_and, not_false_eq_true, true_and]
  tauto

theorem scopes_assignStamps_iff {t : Core} {next : Nat} :
    ctx.Scopes (t.assignStamps next).1 ↔ ctx.Scopes t := by
  simp [scopes_iff]

/-- A substitution whose images of the free names are in scope, and which brings in no anonymous
variable. -/
theorem Scopes.subst {t : Core} {earlier : Substitution}
    (ht : (.reference, anonymous) ∉ t.names)
    (himage : ∀ y ∈ t.freeNames, ctx.Scopes (Substitution.image earlier y))
    (hearlier : ∀ entry ∈ earlier, (.reference, anonymous) ∉ entry.2.names) :
    ctx.Scopes (t.subst earlier) := by
  refine scopes_iff.mpr ⟨fun x hx ↦ ?_, fun hmem ↦ ?_⟩
  · obtain ⟨y, hy, hx⟩ := t.mem_freeNames_subst earlier hx
    exact (scopes_iff.mp (himage y hy)).1 x hx
  · rcases t.mem_names_subst earlier hmem with h | ⟨entry, hentry, h⟩ | ⟨-, hprimed⟩
    · exact ht h
    · exact hearlier entry hentry h
    · exact hprimed.ne_anonymous rfl

/-- The usual substitution of one term for one name. -/
theorem Scopes.subst_single {t s : Core} {name : String} {judgement : Classified Core}
    (ht : (ctx.bind name judgement).Scopes t) (hs : ctx.Scopes s) :
    ctx.Scopes (t.subst (.single name s)) := by
  refine Scopes.subst ht.named (fun y hy ↦ ?_) ?_
  · rw [Substitution.image_single]
    split
    · exact hs
    · rename_i hne
      obtain ⟨hmaps, hname⟩ := scopes_var_iff.mp (ht.var hy)
      exact scopes_var_iff.mpr ⟨(maps_bind.mp hmaps).resolve_left hne, hname⟩
  · intro entry hentry
    rw [Substitution.single, List.mem_singleton] at hentry
    subst hentry
    exact hs.named

/-- The codomain of a function type, for an operand in scope. -/
theorem Scopes.applied {codomain operand : Core} {name : String} {judgement : Classified Core}
    (hcodomain : (ctx.bind name judgement).Scopes codomain) (hoperand : ctx.Scopes operand) :
    ctx.Scopes
      (if name == anonymous then codomain else codomain.subst (.single name operand)) := by
  split
  · rename_i h
    rw [beq_iff_eq] at h
    subst h
    exact hcodomain.of_bind_anonymous
  · exact hcodomain.subst_single hoperand

/-- A normal form is in every scope that holds the values of the names. -/
theorem Scopes.normalizes {t n : Core} {c c' : Nat} (h : t.Normalizes ctx.values c n c')
    (ht : ctx.Scopes t) (hvalues : ctx.ResolvesIn base) : base.Scopes n := by
  have hnamed {y : String} (hy : (.reference, y) ∈ t.names) : y ≠ anonymous := by
    rintro rfl
    exact ht.named hy
  refine scopes_iff.mpr ⟨fun x hx ↦ ?_, fun hmem ↦ ?_⟩
  · obtain ⟨y, hy, hx⟩ := h.mem_freeNames hx
    have hmaps := (scopes_iff.mp ht).1 y hy
    have hscoped := hvalues y hmaps (hnamed (t.mem_names_of_mem_freeNames hy))
    exact (scopes_iff.mp hscoped).1 x hx
  · rcases h.origin hmem with h | ⟨y, hy, h⟩ | ⟨-, hprimed | ⟨k, -, -, hk⟩⟩
    · exact ht.named h
    · by_cases hmaps : ctx.maps y = true
      · exact (hvalues y hmaps (hnamed hy)).named h
      · have hnone : Env.get? ctx.values y = none := by
          rw [get?_values]
          simpa [maps, Env.maps] using hmaps
        simp only [NormEnv.image, hnone, Option.getD_none, Core.names, List.mem_singleton,
          Prod.mk.injEq, true_and] at h
        exact hnamed hy h.symm
    · exact hprimed.ne_anonymous rfl
    · exact generatedName_ne_anonymous k hk.symm

/-! ### Closed contexts -/

theorem get?_of_lookup {x : String} {judgement : Classified Core}
    (h : Env.lookup ctx.vars x = .ok judgement) : Env.get? ctx.vars x = some judgement := by
  unfold Env.lookup at h
  split at h
  · rename_i hget
    injection h with h
    rw [hget, h]
  · simp at h

theorem mem_vars_of_get? {x : String} {judgement : Classified Core}
    (h : Env.get? ctx.vars x = some judgement) : (x, judgement) ∈ ctx.vars := by
  obtain ⟨before, after, hvars, -⟩ := List.lookup_eq_some_iff.mp h
  rw [hvars]
  simp

theorem Closed.scopesNames (h : ctx.Closed) : ctx.ScopesNames := by
  intro x judgement hx hget
  obtain ⟨htype, hterm⟩ := h x judgement (mem_vars_of_get? hget)
  exact ⟨htype, hterm hx⟩

theorem ScopesNames.resolvesIn (h : ctx.ScopesNames) : ctx.ResolvesIn ctx := by
  intro x hx hname
  obtain ⟨judgement, hget⟩ := Option.isSome_iff_exists.mp hx
  rw [image_values_of_get? hget]
  exact (h x judgement hname hget).2

theorem Closed.resolvesIn (h : ctx.Closed) : ctx.ResolvesIn ctx := h.scopesNames.resolvesIn

theorem ScopesNames.bind (h : ctx.ScopesNames) {name : String} {judgement : Classified Core}
    (hname : name ≠ anonymous →
      ctx.Scopes judgement.type ∧ (ctx.bind name judgement).Scopes judgement.term) :
    (ctx.bind name judgement).ScopesNames := by
  have hext := (Extends.refl ctx).bind name judgement
  intro x found hx hget
  by_cases hxn : x = name
  · subst hxn
    obtain rfl : judgement = found := by simpa [Ctx.bind] using hget
    obtain ⟨htype, hterm⟩ := hname hx
    exact ⟨htype.extend hext, hterm⟩
  · have hget : Env.get? ctx.vars x = some found := by
      rwa [Ctx.bind, Env.get?_push_of_ne _ _ hxn] at hget
    obtain ⟨htype, hterm⟩ := h x found hx hget
    exact ⟨htype.extend hext, hterm.extend hext⟩

/-- A name with a value whose type and value were in scope before. -/
theorem ScopesNames.bind_value (h : ctx.ScopesNames) (name : String)
    {judgement : Classified Core} (htype : ctx.Scopes judgement.type)
    (hterm : ctx.Scopes judgement.term) : (ctx.bind name judgement).ScopesNames :=
  h.bind fun _ ↦ ⟨htype, hterm.bind name judgement⟩

theorem ScopesNames.bindDeclared (h : ctx.ScopesNames) {declared : Classified String}
    (htype : ctx.Scopes declared.type) : (ctx.bindDeclared declared).ScopesNames := by
  refine ScopesNames.bind h fun hname ↦ ⟨htype, ?_⟩
  exact scopes_var_iff.mpr ⟨maps_bind.mpr (.inl rfl), hname⟩

/-- A closed context stays closed with a name whose type and value were in scope before. -/
theorem Closed.bind_value (h : ctx.Closed) (name : String) {judgement : Classified Core}
    (htype : ctx.Scopes judgement.type) (hterm : ctx.Scopes judgement.term) :
    (ctx.bind name judgement).Closed := by
  have hext := (Extends.refl ctx).bind name judgement
  intro x found hmem
  rcases List.mem_cons.mp hmem with hmem | hmem
  · obtain ⟨rfl, rfl⟩ := Prod.mk.inj hmem
    exact ⟨htype.extend hext, fun _ ↦ hterm.extend hext⟩
  · obtain ⟨htype', hterm'⟩ := h x found hmem
    exact ⟨htype'.extend hext, fun hx ↦ (hterm' hx).extend hext⟩

theorem ResolvesIn.bind (h : ctx.ResolvesIn base) {name : String} {judgement : Classified Core}
    (hterm : base.Scopes judgement.term) : (ctx.bind name judgement).ResolvesIn base := by
  intro x hx hname
  rw [image_values_bind]
  split
  · exact hterm
  · rename_i hne
    exact h x ((maps_bind.mp hx).resolve_left hne) hname

end Ctx

/-! ### The steps of the typing rules -/

namespace Check

variable {σ κ : Type} {ctx base : Ctx} {fuel : Nat}

/-- Type and term of a judgement are in scope. -/
def Scoped (ctx : Ctx) (judgement : Classified Core) : Prop :=
  ctx.Scopes judgement.type ∧ ctx.Scopes judgement.term

theorem Scoped.extend {judgement : Classified Core} (h : Scoped base judgement)
    (hext : ctx.Extends base) : Scoped ctx judgement :=
  ⟨h.1.extend hext, h.2.extend hext⟩

theorem yields_stamp {t : Core} (h : ctx.Scopes t) :
    (stamp t : Check σ κ Core).Yields ctx.Scopes := by
  intro s n s' hn
  have hn := (returns_modifyGet_iff.mp hn)
  obtain ⟨rfl, -⟩ := Prod.mk.inj hn
  exact Ctx.scopes_assignStamps_iff.mpr h

theorem yields_lambda {param : String} {body : Core} {judgement : Classified Core}
    (h : (ctx.bind param judgement).Scopes body) :
    (lambda param body : Check σ κ Core).Yields ctx.Scopes :=
  yields_stamp ((Ctx.scopes_lam_iff judgement).mpr h)

theorem yields_ofNormalizer {α : Type} {P : α → Prop} {outcome : Outcome BadProjection α}
    (h : ∀ x, outcome = .ok x → P x) : (ofNormalizer outcome : Check σ κ α).Yields P :=
  Yields.mapError fun _ x _ hx ↦ h x (returns_ofOutcome_iff.mp hx).1

theorem yields_normalize {t : Core} (hvalues : ctx.ResolvesIn base) (ht : ctx.Scopes t) :
    (normalize fuel ctx t : Check σ κ Core).Yields base.Scopes := by
  refine (yields_ofNormalizer (P := base.Scopes) fun n hn ↦ ?_).bind fun n hn ↦ yields_stamp hn
  obtain ⟨c, hc⟩ := Core.normalizes_of_normalForm hn
  exact Ctx.Scopes.normalizes hc ht hvalues

theorem yields_normalized {judgement : Classified Core} (hvalues : ctx.ResolvesIn base)
    (h : Scoped ctx judgement) :
    (normalized fuel ctx judgement : Check σ κ (Classified Core)).Yields (Scoped base) := by
  refine (yields_normalize hvalues h.1).bind fun type htype ↦ ?_
  refine (yields_normalize hvalues h.2).bind fun term hterm ↦ ?_
  exact .pure ⟨htype, hterm⟩

theorem yields_ensureFresh {name : String} :
    (ensureFresh ctx name : Check σ κ Unit).Yields fun _ ↦ ctx.isFresh name = true := by
  unfold ensureFresh
  split
  · rename_i h
    exact .pure h
  · exact .fail

theorem yields_lookup {name : String} (hclosed : ctx.ScopesNames) (hname : name ≠ anonymous) :
    (lookup ctx name : Check σ κ (Classified Core)).Yields fun judgement ↦
      Scoped ctx (judgement.withTerm (.var name)) := by
  refine .ofExcept fun judgement h ↦ ?_
  have hget := Ctx.get?_of_lookup h
  refine ⟨(hclosed name judgement hname hget).1, ?_⟩
  exact Ctx.scopes_var_iff.mpr ⟨by simp [Ctx.maps, Env.maps, hget], hname⟩

end Check

end RankedTT
