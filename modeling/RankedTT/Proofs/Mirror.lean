import RankedTT.Proofs.Alike
import RankedTT.Proofs.WellScoped

/-!
The typing rules in two hosts at once. Two hosts that give the same answers to the same requests
have alike elaborations: the judgements that they return differ in the stamps of function bodies at
most. The hosts may have different states; a mirror says which states belong together, what is known
of the constants and of the causes for which an import fails, and what is known of the state in
which the first host ends.
-/

set_option autoImplicit false
set_option relaxedAutoImplicit false

namespace RankedTT

open Run

/-! ### Alike data -/

/-- Data that the typing rules hand on, and when they are alike. -/
class Likeness (α : Type) where
  alike (S : Value → Prop) : α → α → Prop
  alike_refl {S : Value → Prop} (hS : ∀ v, S v) (x : α) : alike S x x

export Likeness (alike)

namespace Likeness

variable {α β : Type}

instance : Likeness Core := ⟨Core.Alike, fun hS t ↦ t.alike_self fun v _ ↦ hS v⟩

instance : Likeness Telescope := ⟨Telescope.Alike, fun hS t ↦ t.alike_self fun v _ ↦ hS v⟩

instance : Likeness Value := ⟨fun S v w ↦ v = w ∧ S v, fun hS v ↦ ⟨rfl, hS v⟩⟩

instance : Likeness Nat := ⟨fun _ ↦ Eq, fun _ _ ↦ rfl⟩

instance : Likeness String := ⟨fun _ ↦ Eq, fun _ _ ↦ rfl⟩

instance : Likeness Unit := ⟨fun _ ↦ Eq, fun _ _ ↦ rfl⟩

instance [Likeness α] [Likeness β] : Likeness (α × β) where
  alike S p q := alike S p.1 q.1 ∧ alike S p.2 q.2
  alike_refl hS p := ⟨alike_refl hS p.1, alike_refl hS p.2⟩

instance [Likeness α] : Likeness (List α) where
  alike S := List.Forall₂ (alike S)
  alike_refl hS _ := List.forall₂_same.mpr fun x _ ↦ alike_refl hS x

instance [Likeness α] : Likeness (Option α) where
  alike S := Option.Rel (alike S)
  alike_refl hS
    | none => .none
    | some x => .some (alike_refl hS x)

instance [Likeness α] : Likeness (Classified α) where
  alike S j k := j.rank = k.rank ∧ j.type.Alike S k.type ∧ alike S j.term k.term
  alike_refl hS j := ⟨rfl, j.type.alike_self fun v _ ↦ hS v, alike_refl hS j.term⟩

instance : Likeness Ctx where
  alike S ctx ctx' := alike S ctx.vars ctx'.vars
  alike_refl hS ctx := alike_refl hS ctx.vars

end Likeness

section Contexts

variable {S : Value → Prop} {ctx ctx' : Ctx}

theorem Ctx.alike_values (h : alike S ctx ctx') : AlikeBindings S ctx.values ctx'.values := by
  rw [AlikeBindings, Ctx.values, Ctx.values, Env.mapBindings, Env.mapBindings,
    List.forall₂_map_left_iff, List.forall₂_map_right_iff]
  exact List.Forall₂.imp (fun _ _ h ↦ ⟨h.1, h.2.2.2⟩) h

theorem Ctx.maps_eq (h : alike S ctx ctx') (x : String) : ctx.maps x = ctx'.maps x := by
  have hvalues := (Ctx.alike_values h).maps_eq x
  simpa [Env.maps, Ctx.maps, Ctx.values, Env.get?_mapBindings] using hvalues

theorem Ctx.isFresh_eq (h : alike S ctx ctx') (name : String) :
    ctx.isFresh name = ctx'.isFresh name := by
  rw [Ctx.isFresh, Ctx.isFresh, Ctx.maps_eq h]

theorem Ctx.alike_bind (h : alike S ctx ctx') (name : String) {j k : Classified Core}
    (hjudgement : alike S j k) : alike S (ctx.bind name j) (ctx'.bind name k) :=
  .cons ⟨rfl, hjudgement⟩ h

theorem Ctx.alike_bindDeclared (h : alike S ctx ctx') {d e : Classified String}
    (hdeclared : alike S d e) : alike S (ctx.bindDeclared d) (ctx'.bindDeclared e) := by
  obtain ⟨hrank, htype, hname⟩ := hdeclared
  change d.term = e.term at hname
  rw [Ctx.bindDeclared, Ctx.bindDeclared, hname]
  refine Ctx.alike_bind h _ ⟨hrank, htype, ?_⟩
  rw [Classified.asVariable, Classified.asVariable, hname]
  exact .var _

theorem Ctx.alike_lookup (h : alike S ctx ctx') {name : String} {j : Classified Core}
    (hj : ctx.vars.lookup name = .ok j) : ∃ k, ctx'.vars.lookup name = .ok k ∧ alike S j k := by
  obtain ⟨vars⟩ := ctx
  obtain ⟨vars'⟩ := ctx'
  change List.Forall₂ (alike S) vars vars' at h
  unfold Env.lookup Env.get? at hj ⊢
  induction h with
  | nil => simp at hj
  | @cons entry entry' _ _ hentry _ ih =>
    obtain ⟨hname, hjudgement⟩ := hentry
    change entry.1 = entry'.1 at hname
    rw [List.lookup_cons] at hj ⊢
    rw [← hname]
    cases hmatch : name == entry.1 with
    | true =>
      rw [hmatch] at hj
      injection hj with hj
      exact ⟨entry'.2, rfl, hj ▸ hjudgement⟩
    | false =>
      rw [hmatch] at hj
      exact ih hj

end Contexts

section Comparison

variable {S : Value → Prop} {fuel : Nat} {env env' : NormEnv} {j j' k k' : Classified Core}

theorem Classified.isEqualTo_alike (henv : AlikeBindings S env env') (hj : alike S j j')
    (hk : alike S k k') {b : Bool} (h : isEqualTo fuel env j k = .ok b) :
    isEqualTo fuel env' j' k' = .ok b := by
  unfold Classified.isEqualTo at h ⊢
  rw [← hj.1, ← hk.1]
  by_cases hrank : (j.rank != k.rank) = true
  · rw [if_pos hrank] at h ⊢
    exact h
  · rw [if_neg hrank] at h ⊢
    obtain ⟨m, hm, h⟩ := Run.outcome_bind_eq_ok_iff.mp h
    obtain ⟨n, hn, h⟩ := Run.outcome_bind_eq_ok_iff.mp h
    obtain ⟨m', hm', hmalike⟩ := hj.2.1.normalForm henv hm
    obtain ⟨n', hn', hnalike⟩ := hk.2.1.normalForm henv hn
    refine Run.outcome_bind_eq_ok_iff.mpr ⟨m', hm', ?_⟩
    refine Run.outcome_bind_eq_ok_iff.mpr ⟨n', hn', ?_⟩
    rw [← hmalike.alphaEq_eq hnalike]
    by_cases htype : (!m.alphaEq n) = true
    · rw [if_pos htype] at h ⊢
      exact h
    · rw [if_neg htype] at h ⊢
      obtain ⟨m, hm, h⟩ := Run.outcome_bind_eq_ok_iff.mp h
      obtain ⟨n, hn, h⟩ := Run.outcome_bind_eq_ok_iff.mp h
      obtain ⟨m', hm', hmalike⟩ := Core.Alike.normalForm hj.2.2 henv hm
      obtain ⟨n', hn', hnalike⟩ := Core.Alike.normalForm hk.2.2 henv hn
      refine Run.outcome_bind_eq_ok_iff.mpr ⟨m', hm', ?_⟩
      refine Run.outcome_bind_eq_ok_iff.mpr ⟨n', hn', ?_⟩
      rw [← hmalike.alphaEq_eq hnalike]
      exact h

theorem Classified.mismatch?_eq_none_iff :
    j.mismatch? fuel env k = .ok none ↔ isEqualTo fuel env j k = .ok true := by
  unfold Classified.mismatch?
  rw [Run.outcome_bind_eq_ok_iff]
  constructor
  · rintro ⟨b, hb, h⟩
    cases b with
    | true => exact hb
    | false =>
      obtain ⟨_, -, h⟩ := Run.outcome_bind_eq_ok_iff.mp h
      obtain ⟨_, -, h⟩ := Run.outcome_bind_eq_ok_iff.mp h
      cases h
  · intro h
    exact ⟨true, h, rfl⟩

end Comparison

/-! ### Mirrors -/

/-- How two hosts belong together. -/
structure Mirror (σ σ' κ : Type) where
  hosts : Simulation σ σ'
  /-- What is known of constants. -/
  constants : Value → Prop
  /-- What is known of the causes for which an import fails in the first host. -/
  causes : κ → Prop
  /-- Where something has to be known of the last state, nothing is known of constants. -/
  unconstrained : ∀ s, ¬ hosts.settled s → ∀ v, constants v

/-- An import fails for a cause with the property. -/
def Refusal.Due {κ : Type} (F : κ → Prop) : Refusal κ → Prop
  | .rejected _ => True
  | .importFailed _ cause => F cause

namespace Mirror

variable {σ σ' κ κ' α β : Type} (M : Mirror σ σ' κ)

/-- The mirror of the runs in the two hosts, whose journals are not compared. -/
def progress : Simulation (Progress σ) (Progress σ') where
  states s s' := M.hosts.states s.host s'.host
  settled s := M.hosts.settled s.host

/-- The second check follows the first one, with an alike answer. -/
def Mirrors [Likeness α] (a : Check σ κ α) (b : Check σ' κ' α) : Prop :=
  Follows M.progress (Refusal.Due M.causes) (alike M.constants) a b

variable {M}

theorem total [Likeness α] (s : Progress σ) (h : ¬ M.progress.settled s) (x : α) :
    ∃ y, alike M.constants x y :=
  ⟨x, Likeness.alike_refl (M.unconstrained s.host h) x⟩

namespace Mirrors

theorem pure [Likeness α] {x y : α} (h : alike M.constants x y) :
    M.Mirrors (Pure.pure x : Check σ κ α) (Pure.pure y : Check σ' κ' α) :=
  Follows.pure h

theorem reject [Likeness α] {cause : TypeError} {b : Check σ' κ' α} :
    M.Mirrors (Check.reject cause : Check σ κ α) b :=
  Follows.fail trivial

theorem bind [Likeness α] [Likeness β] {a : Check σ κ α} {b : Check σ' κ' α} {f : α → Check σ κ β}
    {g : α → Check σ' κ' β} (ha : M.Mirrors a b)
    (hf : ∀ x y, alike M.constants x y → M.Mirrors (f x) (g y)) :
    M.Mirrors (a >>= f) (b >>= g) :=
  Follows.bind total ha hf

theorem record {event event' : Event} :
    M.Mirrors (Check.record event : Check σ κ Unit) (Check.record event' : Check σ' κ' Unit) :=
  Follows.modifyGet (fun _ h ↦ h) fun _ _ h ↦ ⟨h, rfl⟩

theorem stamp {t t' : Core} (h : t.Alike M.constants t') :
    M.Mirrors (Check.stamp t : Check σ κ Core) (Check.stamp t' : Check σ' κ' Core) :=
  Follows.modifyGet (fun _ h ↦ h) fun s s' hs ↦
    ⟨hs, h.assignStamps s.journal.nextStamp s'.journal.nextStamp⟩

theorem lambda (param : String) {body body' : Core} (h : body.Alike M.constants body') :
    M.Mirrors (Check.lambda param body : Check σ κ Core)
      (Check.lambda param body' : Check σ' κ' Core) :=
  stamp (.lam param none none h)

theorem subst {t t' : Core} {images images' : Substitution}
    (himages : AlikeBindings M.constants images images') (h : t.Alike M.constants t') :
    M.Mirrors (Check.subst images t : Check σ κ Core)
      (Check.subst images' t' : Check σ' κ' Core) :=
  stamp (h.subst himages)

theorem ofNormalizer [Likeness α] {o o' : Outcome BadProjection α}
    (h : ∀ x, o = .ok x → ∃ y, o' = .ok y ∧ alike M.constants x y) :
    M.Mirrors (Check.ofNormalizer o : Check σ κ α) (Check.ofNormalizer o' : Check σ' κ' α) :=
  Follows.mapError (F := fun _ ↦ True) (Follows.ofOutcome (fun _ ↦ trivial) h) fun _ _ ↦ trivial

theorem ofOption [Likeness α] {cause cause' : TypeError} {o o' : Option α}
    (h : alike M.constants o o') :
    M.Mirrors (Run.ofOption (.rejected cause) o : Check σ κ α)
      (Run.ofOption (.rejected cause') o' : Check σ' κ' α) := by
  refine Follows.ofOption trivial fun x hx ↦ ?_
  subst hx
  cases h with
  | some h => exact ⟨_, rfl, h⟩

section Steps

variable {fuel : Nat} {ctx ctx' : Ctx} (hctx : alike M.constants ctx ctx')

include hctx

theorem normalize {t t' : Core} (h : t.Alike M.constants t') :
    M.Mirrors (Check.normalize fuel ctx t : Check σ κ Core)
      (Check.normalize fuel ctx' t' : Check σ' κ' Core) := by
  refine bind (ofNormalizer fun n hn ↦ ?_) fun n n' hn ↦ stamp hn
  exact h.normalForm (Ctx.alike_values hctx) hn

theorem normalized {j k : Classified Core} (h : alike M.constants j k) :
    M.Mirrors (Check.normalized fuel ctx j : Check σ κ (Classified Core))
      (Check.normalized fuel ctx' k : Check σ' κ' (Classified Core)) := by
  obtain ⟨hrank, htype, hterm⟩ := h
  refine bind (normalize hctx htype) fun type type' htype ↦ ?_
  refine bind (normalize hctx hterm) fun term term' hterm ↦ ?_
  exact pure ⟨hrank, htype, hterm⟩

theorem lookup (name : String) :
    M.Mirrors (Check.lookup ctx name : Check σ κ (Classified Core))
      (Check.lookup ctx' name : Check σ' κ' (Classified Core)) :=
  Follows.ofExcept (fun _ ↦ trivial) fun _ h ↦ Ctx.alike_lookup hctx h

theorem ensureFresh (name : String) :
    M.Mirrors (Check.ensureFresh ctx name : Check σ κ Unit)
      (Check.ensureFresh ctx' name : Check σ' κ' Unit) := by
  rw [Check.ensureFresh, Check.ensureFresh, Ctx.isFresh_eq hctx]
  split
  · exact pure rfl
  · exact reject

end Steps

theorem convert {fuel : Nat} {env env' : NormEnv}
    {found found' expected expected' : Classified Core}
    (henv : AlikeBindings M.constants env env') (hfound : alike M.constants found found')
    (hexpected : alike M.constants expected expected') :
    M.Mirrors (Check.convert fuel env found expected : Check σ κ Unit)
      (Check.convert fuel env' found' expected' : Check σ' κ' Unit) := by
  unfold Check.convert
  refine bind record fun _ _ _ ↦ ?_
  rcases hmismatch : found.mismatch? fuel env expected with stop | answer
  · change M.Mirrors (throw (stop.map fun cause ↦ .rejected (.badProjection cause))) _
    refine Follows.stop fun cause hcause ↦ ?_
    cases stop with
    | error =>
      injection hcause with hcause
      exact hcause ▸ trivial
    | outOfFuel => cases hcause
  · cases answer with
    | some cause => exact reject
    | none =>
      have hequal := Classified.isEqualTo_alike henv hfound hexpected
        (Classified.mismatch?_eq_none_iff.mp hmismatch)
      rw [Classified.mismatch?_eq_none_iff.mpr hequal]
      exact pure rfl

end Mirrors

end Mirror

/-! ### Rules -/

/-- Two rules with alike answers. -/
structure Judged.Mirrored {σ σ' κ κ' : Type} (M : Mirror σ σ' κ) (rule : Judged σ κ)
    (rule' : Judged σ' κ') : Prop where
  infer : ∀ {ctx ctx' : Ctx}, alike M.constants ctx ctx' →
    M.Mirrors (rule.infer ctx) (rule'.infer ctx')
  check : ∀ {ctx ctx' : Ctx}, alike M.constants ctx ctx' →
    ∀ {expected expected' : Classified Core}, alike M.constants expected expected' →
      M.Mirrors (rule.check ctx expected) (rule'.check ctx' expected')

open Mirror

section Steps

variable {σ σ' κ κ' : Type} {M : Mirror σ σ' κ} {fuel : Nat} {rule : Judged σ κ}
  {rule' : Judged σ' κ'} {ctx ctx' : Ctx}

theorem Judged.Mirrored.logged (h : rule.Mirrored M rule') :
    rule.logged.Mirrored M rule'.logged where
  infer hctx := (h.infer hctx).bind fun _ _ hj ↦ Mirrors.record.bind fun _ _ _ ↦ .pure hj
  check hctx _ _ hexpected := Mirrors.record.bind fun _ _ _ ↦ h.check hctx hexpected

theorem Classified.alike_inhabitant? {α : Type} [Likeness α] {S : Value → Prop}
    {j k : Classified Core} (h : alike S j k) {t t' : α} (ht : alike S t t') :
    alike S (j.inhabitant? t) (k.inhabitant? t') := by
  obtain ⟨rank, type, term⟩ := j
  obtain ⟨rank', type', term'⟩ := k
  obtain ⟨-, htype, hterm⟩ := h
  change type.Alike S type' at htype
  cases htype with
  | univ rank => exact .some ⟨rfl, hterm, ht⟩
  | _ => exact .none

theorem Judged.Mirrored.ensure (h : rule.Mirrored M rule') (hctx : alike M.constants ctx ctx')
    {expected expected' : Option (Classified Core)}
    (hexpected : alike M.constants expected expected') :
    M.Mirrors (rule.ensure ctx expected) (rule'.ensure ctx' expected') := by
  cases hexpected with
  | none => exact h.infer hctx
  | some hexpected =>
    refine (h.check hctx hexpected).bind fun t t' ht ↦ ?_
    exact .ofOption (Classified.alike_inhabitant? hexpected ht)

theorem Judged.Mirrored.declare (h : rule.Mirrored M rule') (hctx : alike M.constants ctx ctx')
    (name : String) : M.Mirrors (rule.declare fuel ctx name) (rule'.declare fuel ctx' name) := by
  refine (h.infer hctx).bind fun found found' hfound ↦ ?_
  refine (Mirrors.normalized hctx hfound).bind fun j j' hj ↦ ?_
  exact .ofOption (Classified.alike_inhabitant? hj rfl)

theorem Classified.alike_typeOf {α : Type} [Likeness α] {S : Value → Prop} {j k : Classified α}
    (h : alike S j k) : alike S j.typeOf k.typeOf := by
  obtain ⟨hrank, htype, -⟩ := h
  refine ⟨congrArg (· + 1) hrank, ?_, htype⟩
  rw [Classified.typeOf, Classified.typeOf, hrank]
  exact .univ _

theorem Classified.alike_isType {S : Value → Prop} (rank : Nat) {t t' : Core} (h : t.Alike S t') :
    alike S (⟨rank + 1, .univ rank, t⟩ : Classified Core) ⟨rank + 1, .univ rank, t'⟩ :=
  ⟨rfl, .univ rank, h⟩

theorem Classified.alike_declaration {S : Value → Prop} (rank : Nat) (name : String) {t t' : Core}
    (h : t.Alike S t') : alike S (⟨rank, t, name⟩ : Classified String) ⟨rank, t', name⟩ :=
  ⟨rfl, h, rfl⟩

/-- The end of every rule that checks by inference. -/
theorem convert_mirrors (hctx : alike M.constants ctx ctx')
    {found found' expected expected' : Classified Core} (hfound : alike M.constants found found')
    (hexpected : alike M.constants expected expected') :
    M.Mirrors (do
        Check.convert fuel ctx.values found.typeOf expected
        return found.term : Check σ κ Core)
      (do
        Check.convert fuel ctx'.values found'.typeOf expected'
        return found'.term : Check σ' κ' Core) :=
  (Mirrors.convert (Ctx.alike_values hctx) (Classified.alike_typeOf hfound) hexpected).bind
    fun _ _ _ ↦ .pure hfound.2.2

variable {infer : Ctx → Check σ κ (Classified Core)} {infer' : Ctx → Check σ' κ' (Classified Core)}
  {expected expected' : Classified Core}

theorem checkByInference_mirrors (hctx : alike M.constants ctx ctx')
    (h : M.Mirrors (infer ctx) (infer' ctx')) (hexpected : alike M.constants expected expected') :
    M.Mirrors (checkByInference fuel infer ctx expected)
      (checkByInference fuel infer' ctx' expected') :=
  h.bind fun _ _ hfound ↦ convert_mirrors hctx hfound hexpected

theorem checkTypeByInference_mirrors {term term' : Term} (hctx : alike M.constants ctx ctx')
    (h : M.Mirrors (infer ctx) (infer' ctx')) (hexpected : alike M.constants expected expected') :
    M.Mirrors (checkTypeByInference fuel term infer ctx expected)
      (checkTypeByInference fuel term' infer' ctx' expected') := by
  refine h.bind fun found found' hfound ↦ ?_
  refine (Mirrors.normalize hctx hexpected.2.2).bind fun type type' htype ↦ ?_
  refine (Mirrors.normalize hctx hfound.2.1).bind fun kind kind' hkind ↦ ?_
  have hrest := @convert_mirrors σ σ' κ κ' M fuel ctx ctx' hctx _ _ _ _ hfound hexpected
  cases htype with
  | univ m =>
    cases hkind with
    | univ n =>
      dsimp only
      split
      · exact Mirrors.reject.bind fun _ _ _ ↦ hrest
      · exact hrest
    | _ => exact hrest
  | _ => exact hrest

theorem mirrored_of_infer {self self' : Term}
    (h : ∀ {ctx ctx' : Ctx}, alike M.constants ctx ctx' → M.Mirrors (infer ctx) (infer' ctx')) :
    (inferredRule fuel self infer).Mirrored M (inferredRule fuel self' infer') where
  infer := h
  check hctx _ _ hexpected := checkByInference_mirrors hctx (h hctx) hexpected

end Steps

section Functions

variable {σ σ' κ κ' : Type} {M : Mirror σ σ' κ} {fuel : Nat} {self self' : Term} {ctx ctx' : Ctx}
  {definition body operator argument function type : Judged σ κ}
  {definition' body' operator' argument' function' type' : Judged σ' κ'}

theorem elaborateLet_mirrors (hdefinition : definition.Mirrored M definition')
    (hbody : body.Mirrored M body') (name : String) (hctx : alike M.constants ctx ctx')
    {expected expected' : Option (Classified Core)}
    (hexpected : alike M.constants expected expected') :
    M.Mirrors (elaborateLet fuel name definition body expected ctx)
      (elaborateLet fuel name definition' body' expected' ctx') := by
  refine (Mirrors.ensureFresh hctx name).bind fun _ _ _ ↦ ?_
  refine (hdefinition.infer hctx).bind fun defined defined' hdefined ↦ ?_
  refine (Mirrors.normalized hctx hdefined).bind fun value value' hvalue ↦ ?_
  have hinner := Ctx.alike_bind hctx name hvalue
  refine (hbody.ensure hinner hexpected).bind fun found found' hfound ↦ ?_
  refine (Mirrors.normalize hinner hfound.2.1).bind fun result result' hresult ↦ ?_
  refine (Mirrors.lambda name hfound.2.2).bind fun lambda lambda' hlambda ↦ ?_
  refine .pure ⟨hfound.1, hresult, ?_⟩
  dsimp only [Core.apply, Core.quantify, Classified.withTerm]
  rw [← hfound.1, ← hdefined.1]
  exact .app _ (.quant _ _ _ hdefined.2.1 hresult) hlambda hdefined.2.2

theorem letRule_mirrored (hdefinition : definition.Mirrored M definition')
    (hbody : body.Mirrored M body') (name : String) :
    (letRule fuel self name definition body).Mirrored M
      (letRule fuel self' name definition' body') where
  infer hctx := elaborateLet_mirrors hdefinition hbody name hctx .none
  check hctx _ _ hexpected :=
    (elaborateLet_mirrors hdefinition hbody name hctx (.some hexpected)).bind fun _ _ h ↦
      .pure h.2.2

/-- The body of a lambda, once the parameter is declared. -/
theorem lambdaBody_mirrors (hbody : body.Mirrored M body') (hctx : alike M.constants ctx ctx')
    (rank : Nat) (param name : String) {domain domain' codomain codomain' : Core}
    (hdomain : domain.Alike M.constants domain') (hcodomain : codomain.Alike M.constants codomain')
    {expected expected' : Classified Core} (hexpected : alike M.constants expected expected') :
    M.Mirrors (do
        let codomain ←
          if name == anonymous || name == param then pure codomain
          else Check.subst (.single name (.var param)) codomain
        let body ← body.check (ctx.bindDeclared ⟨rank, domain, param⟩) (expected.withTerm codomain)
        Check.lambda param body : Check σ κ Core)
      (do
        let codomain ←
          if name == anonymous || name == param then pure codomain'
          else Check.subst (.single name (.var param)) codomain'
        let body ← body'.check (ctx'.bindDeclared ⟨rank, domain', param⟩)
          (expected'.withTerm codomain)
        Check.lambda param body : Check σ' κ' Core) := by
  have hinner := Ctx.alike_bindDeclared hctx (Classified.alike_declaration rank param hdomain)
  have hrest {range range' : Core} (hrange : range.Alike M.constants range') : M.Mirrors (do
        let body ← body.check (ctx.bindDeclared ⟨rank, domain, param⟩) (expected.withTerm range)
        Check.lambda param body : Check σ κ Core)
      (do
        let body ← body'.check (ctx'.bindDeclared ⟨rank, domain', param⟩)
          (expected'.withTerm range')
        Check.lambda param body : Check σ' κ' Core) := by
    have hcheck : alike M.constants (expected.withTerm range) (expected'.withTerm range') :=
      ⟨hexpected.1, hexpected.2.1, hrange⟩
    exact (hbody.check hinner hcheck).bind fun _ _ ht ↦ .lambda param ht
  split
  · exact (Mirrors.pure hcodomain).bind fun _ _ hrange ↦ hrest hrange
  · exact (Mirrors.subst (.cons ⟨rfl, .var param⟩ .nil) hcodomain).bind fun _ _ hrange ↦
      hrest hrange

theorem lambdaRule_mirrored (param : String) (hbody : body.Mirrored M body') :
    (lambdaRule fuel self param body).Mirrored M (lambdaRule fuel self' param body') where
  infer _ := .reject
  check hctx _ _ hexpected := by
    refine (Mirrors.normalize hctx hexpected.2.2).bind fun kind kind' hkind ↦ ?_
    cases hkind with
    | quant polarity rank name hdomain hcodomain =>
      cases polarity with
      | universal =>
        refine (Mirrors.ensureFresh hctx param).bind fun _ _ _ ↦ ?_
        exact lambdaBody_mirrors hbody hctx rank param name hdomain hcodomain hexpected
      | existential => exact .reject
    | _ => exact .reject

theorem typedLambdaRule_mirrored (param : String) (htype : type.Mirrored M type')
    (hbody : body.Mirrored M body') :
    (typedLambdaRule fuel self param type body).Mirrored M
      (typedLambdaRule fuel self' param type' body') where
  infer {ctx ctx'} hctx := by
    refine (Mirrors.ensureFresh hctx param).bind fun _ _ _ ↦ ?_
    refine (htype.declare hctx param).bind fun declared declared' hdeclared ↦ ?_
    have hinner := Ctx.alike_bindDeclared hctx hdeclared
    refine (hbody.infer hinner).bind fun found found' hfound ↦ ?_
    refine (Mirrors.normalize hinner hfound.2.1).bind fun bodyType bodyType' hbodyType ↦ ?_
    have hrest : M.Mirrors (do
        return ⟨found.rank, Core.quantify .universal (declared.withTerm anonymous) bodyType,
          ← Check.lambda param found.term⟩ : Check σ κ (Classified Core))
        (do
        return ⟨found'.rank, Core.quantify .universal (declared'.withTerm anonymous) bodyType',
          ← Check.lambda param found'.term⟩ : Check σ' κ' (Classified Core)) := by
      refine (Mirrors.lambda param hfound.2.2).bind fun lambda lambda' hlambda ↦ ?_
      refine .pure ⟨hfound.1, ?_, hlambda⟩
      dsimp only [Core.quantify, Classified.withTerm]
      rw [← hdeclared.1]
      exact .quant _ _ _ hdeclared.2.1 hbodyType
    dsimp only
    rw [← Core.Alike.occursFree_eq hbodyType param]
    split
    · exact Mirrors.reject.bind fun _ _ _ ↦ hrest
    · exact hrest
  check hctx _ _ hexpected := by
    refine (Mirrors.normalize hctx hexpected.2.2).bind fun kind kind' hkind ↦ ?_
    cases hkind with
    | quant polarity rank name hdomain hcodomain =>
      cases polarity with
      | universal =>
        refine (Mirrors.ensureFresh hctx param).bind fun _ _ _ ↦ ?_
        refine (htype.declare hctx param).bind fun declared declared' hdeclared ↦ ?_
        refine (Mirrors.convert (Ctx.alike_values hctx) (Classified.alike_typeOf hdeclared)
          (Classified.alike_isType rank hdomain)).bind fun _ _ _ ↦ ?_
        exact lambdaBody_mirrors hbody hctx rank param name hdomain hcodomain hexpected
      | existential => exact .reject
    | _ => exact .reject

theorem inferApplication_mirrors (hoperator : operator.Mirrored M operator')
    (hargument : argument.Mirrored M argument') (hctx : alike M.constants ctx ctx') :
    M.Mirrors (inferApplication fuel self operator argument ctx)
      (inferApplication fuel self' operator' argument' ctx') := by
  refine (hoperator.infer hctx).bind fun function function' hfunction ↦ ?_
  refine (Mirrors.normalize hctx hfunction.2.1).bind fun kind kind' hkind ↦ ?_
  cases hkind with
  | @quant polarity rank name _ _ codomain codomain' hdomain hcodomain =>
    cases polarity with
    | universal =>
      refine (hargument.check hctx (Classified.alike_isType rank hdomain)).bind
        fun operand operand' hoperand ↦ ?_
      have hresult : Core.Alike M.constants
          (if name == anonymous then codomain else codomain.subst (.single name operand))
          (if name == anonymous then codomain' else codomain'.subst (.single name operand')) := by
        split
        · exact hcodomain
        · exact hcodomain.subst_single hoperand name
      refine (Mirrors.normalize hctx hresult).bind fun result result' hresult ↦ ?_
      refine .pure ⟨hfunction.1, hresult, ?_⟩
      dsimp only
      rw [← hfunction.1]
      exact .app _ (.quant _ _ _ hdomain hcodomain) hfunction.2.2 hoperand
    | existential => exact .reject
  | _ => exact .reject

theorem applicationRule_mirrored (hoperator : operator.Mirrored M operator')
    (hargument : argument.Mirrored M argument') :
    (applicationRule fuel self operator argument).Mirrored M
      (applicationRule fuel self' operator' argument') where
  infer hctx := inferApplication_mirrors hoperator hargument hctx
  check hctx _ _ hexpected :=
    checkByInference_mirrors hctx (inferApplication_mirrors hoperator hargument hctx) hexpected

theorem checkAppliedLambda_mirrors (hfunction : function.Mirrored M function')
    (hargument : argument.Mirrored M argument') (hctx : alike M.constants ctx ctx')
    {expected expected' : Classified Core} (hexpected : alike M.constants expected expected') :
    M.Mirrors (checkAppliedLambda function argument ctx expected)
      (checkAppliedLambda function' argument' ctx' expected') := by
  refine (hargument.infer hctx).bind fun found found' hfound ↦ ?_
  have harrow : alike M.constants
      (expected.withTerm (Core.quantify .universal (found.withTerm anonymous) expected.term))
      (expected'.withTerm
        (Core.quantify .universal (found'.withTerm anonymous) expected'.term)) := by
    refine ⟨hexpected.1, hexpected.2.1, ?_⟩
    dsimp only [Core.quantify, Classified.withTerm]
    rw [← hfound.1]
    exact .quant _ _ _ hfound.2.1 hexpected.2.2
  refine (hfunction.check hctx harrow).bind fun t t' ht ↦ ?_
  refine (Mirrors.ofOption (Classified.alike_inhabitant? harrow ht)).bind fun op op' hop ↦ ?_
  refine .pure ?_
  dsimp only [Core.apply]
  rw [← hop.1]
  exact .app _ hop.2.1 hop.2.2 hfound.2.2

theorem appliedLambdaRule_mirrored (param : String) (hfunction : function.Mirrored M function')
    (hbody : body.Mirrored M body') (hargument : argument.Mirrored M argument') :
    (appliedLambdaRule fuel self function param body argument).Mirrored M
      (appliedLambdaRule fuel self' function' param body' argument') where
  infer hctx := elaborateLet_mirrors hargument hbody param hctx .none
  check hctx _ _ hexpected := checkAppliedLambda_mirrors hfunction hargument hctx hexpected

theorem appliedTypedLambdaRule_mirrored (hfunction : function.Mirrored M function')
    (hargument : argument.Mirrored M argument') :
    (appliedTypedLambdaRule fuel self function argument).Mirrored M
      (appliedTypedLambdaRule fuel self' function' argument') where
  infer hctx := inferApplication_mirrors hfunction.logged hargument hctx
  check hctx _ _ hexpected := checkAppliedLambda_mirrors hfunction hargument hctx hexpected

end Functions

section Quantifiers

variable {σ σ' κ κ' : Type} {M : Mirror σ σ' κ} {fuel : Nat} {self self' : Term} {ctx ctx' : Ctx}
  {cls type body : Judged σ κ} {cls' type' body' : Judged σ' κ'}

theorem Classified.alike_quantify {S : Value → Prop} (polarity : Polarity)
    {binder binder' : Classified String} (hbinder : alike S binder binder')
    {range range' : Classified Core} (hrange : alike S range range') :
    alike S (range.map (Core.quantify polarity binder))
      (range'.map (Core.quantify polarity binder')) := by
  refine ⟨hrange.1, hrange.2.1, ?_⟩
  dsimp only [Classified.map, Core.quantify]
  rw [← hbinder.1, ← (show binder.term = binder'.term from hbinder.2.2)]
  exact .quant _ _ _ hbinder.2.1 hrange.2.2

theorem quantifyOver_mirrors (polarity : Polarity) (hbody : body.Mirrored M body')
    (hctx : alike M.constants ctx ctx') {binder binder' : Classified String}
    (hbinder : alike M.constants binder binder') :
    M.Mirrors (quantifyOver polarity binder body ctx)
      (quantifyOver polarity binder' body' ctx') := by
  refine (hbody.infer (Ctx.alike_bindDeclared hctx hbinder)).bind fun range range' hrange ↦ ?_
  obtain ⟨rank, kind, t⟩ := range
  obtain ⟨rank', kind', t'⟩ := range'
  have hkind : kind.Alike M.constants kind' := hrange.2.1
  cases hkind with
  | univ => exact .pure (Classified.alike_quantify polarity hbinder hrange)
  | _ => exact .reject

theorem quantifyOverClass_mirrors (polarity : Polarity) (name : String)
    (hcls : cls.Mirrored M cls') (hbody : body.Mirrored M body')
    (hctx : alike M.constants ctx ctx') :
    M.Mirrors (quantifyOverClass fuel polarity name cls body ctx)
      (quantifyOverClass fuel polarity name cls' body' ctx') := by
  refine (hcls.infer hctx).bind fun found found' hfound ↦ ?_
  refine (Mirrors.normalized hctx hfound).bind fun cls cls' hcls ↦ ?_
  obtain ⟨rank, kind, t⟩ := cls
  obtain ⟨rank', kind', t'⟩ := cls'
  obtain ⟨hrank, hkind, hterm⟩ := hcls
  change kind.Alike M.constants kind' at hkind
  obtain rfl : rank = rank' := hrank
  cases hkind with
  | @quant quantifier domainRank bound domain domain' _ _ hdomain hcodomain =>
    cases quantifier with
    | universal =>
      cases hcodomain with
      | univ instanceRank =>
        have hparameter := Classified.alike_declaration domainRank name hdomain
        have hevidence : Core.Alike M.constants
            (.apply ⟨rank, .quant .universal domainRank domain bound (.univ instanceRank), t⟩
              (.var name))
            (.apply ⟨rank, .quant .universal domainRank domain' bound (.univ instanceRank), t'⟩
              (.var name)) :=
          .app rank (.quant _ _ _ hdomain (.univ _)) hterm (.var name)
        refine (quantifyOver_mirrors polarity hbody (Ctx.alike_bindDeclared hctx hparameter)
          (Classified.alike_declaration instanceRank anonymous hevidence)).bind
            fun range range' hrange ↦ ?_
        exact .pure (Classified.alike_quantify polarity hparameter hrange)
      | _ => exact .reject
    | existential => exact .reject
  | _ => exact .reject

theorem quantifierRule_mirrored {infer : Ctx → Check σ κ (Classified Core)}
    {infer' : Ctx → Check σ' κ' (Classified Core)}
    (h : ∀ {ctx ctx' : Ctx}, alike M.constants ctx ctx' → M.Mirrors (infer ctx) (infer' ctx')) :
    (quantifierRule fuel self infer).Mirrored M (quantifierRule fuel self' infer') where
  infer := h
  check hctx _ _ hexpected := by
    refine (Mirrors.normalize hctx hexpected.2.2).bind fun kind kind' hkind ↦ ?_
    cases hkind with
    | univ => exact checkTypeByInference_mirrors hctx (h hctx) hexpected
    | _ => exact .reject

theorem inferUnbounded_mirrors (polarity : Polarity) (name : Option String)
    (hbody : body.Mirrored M body') (hctx : alike M.constants ctx ctx') :
    M.Mirrors (inferUnbounded polarity name body ctx)
      (inferUnbounded polarity name body' ctx') := by
  refine (Mirrors.ensureFresh hctx (boundName name)).bind fun _ _ _ ↦ ?_
  exact quantifyOver_mirrors polarity hbody hctx ⟨rfl, .univ 0, rfl⟩

theorem inferTypeBound_mirrors (polarity : Polarity) (name : Option String)
    (htype : type.Mirrored M type') (hbody : body.Mirrored M body')
    (hctx : alike M.constants ctx ctx') :
    M.Mirrors (inferTypeBound fuel polarity name type body ctx)
      (inferTypeBound fuel polarity name type' body' ctx') := by
  refine (Mirrors.ensureFresh hctx (boundName name)).bind fun _ _ _ ↦ ?_
  refine (htype.declare hctx (boundName name)).bind fun binder binder' hbinder ↦ ?_
  exact quantifyOver_mirrors polarity hbody hctx hbinder

theorem inferClassBound_mirrors (polarity : Polarity) (name : Option String)
    (hcls : cls.Mirrored M cls') (hbody : body.Mirrored M body')
    (hctx : alike M.constants ctx ctx') :
    M.Mirrors (inferClassBound fuel polarity name cls body ctx)
      (inferClassBound fuel polarity name cls' body' ctx') := by
  refine (Mirrors.ensureFresh hctx (boundName name)).bind fun _ _ _ ↦ ?_
  cases name with
  | some name => exact quantifyOverClass_mirrors polarity name hcls hbody hctx
  | none => exact .reject

end Quantifiers

section Records

variable {σ σ' κ κ' : Type} {M : Mirror σ σ' κ} {fuel : Nat} {self self' : Term} {ctx ctx' : Ctx}

/-- The same names, judged by mirrored rules. -/
def MirroredFields (M : Mirror σ σ' κ) :
    List (String × Judged σ κ) → List (String × Judged σ' κ') → Prop :=
  List.Forall₂ fun field field' ↦ field.1 = field'.1 ∧ field.2.Mirrored M field'.2

variable {fields : List (String × Judged σ κ)} {fields' : List (String × Judged σ' κ')}

theorem inferTelescope_mirrors (h : MirroredFields M fields fields')
    (hctx : alike M.constants ctx ctx') :
    M.Mirrors (inferTelescope fuel ctx fields) (inferTelescope fuel ctx' fields') := by
  induction h generalizing ctx ctx' with
  | nil => exact .pure ⟨rfl, .nil⟩
  | @cons field field' rest rest' hfield _ ih =>
    obtain ⟨name, type⟩ := field
    obtain ⟨_, type'⟩ := field'
    obtain ⟨rfl, htype⟩ := hfield
    refine (Mirrors.ensureFresh hctx name).bind fun _ _ _ ↦ ?_
    refine (htype.declare hctx name).bind fun declared declared' hdeclared ↦ ?_
    refine (ih (Ctx.alike_bindDeclared hctx hdeclared)).bind fun found found' hfound ↦ ?_
    obtain ⟨rank, members⟩ := found
    obtain ⟨_, members'⟩ := found'
    obtain ⟨rfl, hmembers⟩ := hfound
    dsimp only
    rw [← hdeclared.1]
    exact .pure ⟨rfl, .cons _ name hdeclared.2.1 hmembers⟩

theorem inferSignature_mirrors (h : MirroredFields M fields fields')
    (hctx : alike M.constants ctx ctx') :
    M.Mirrors (inferSignature fuel fields ctx) (inferSignature fuel fields' ctx') := by
  refine (inferTelescope_mirrors h hctx).bind fun found found' hfound ↦ ?_
  obtain ⟨rank, members⟩ := found
  obtain ⟨_, members'⟩ := found'
  obtain ⟨rfl, hmembers⟩ := hfound
  exact .pure (Classified.alike_isType rank (.signature hmembers))

theorem inferMembers_mirrors (h : MirroredFields M fields fields')
    (hctx : alike M.constants ctx ctx') {earlier earlier' : Substitution}
    (hearlier : AlikeBindings M.constants earlier earlier') :
    M.Mirrors (inferMembers fuel ctx earlier fields) (inferMembers fuel ctx' earlier' fields') := by
  induction h generalizing ctx ctx' earlier earlier' with
  | nil => exact .pure ⟨rfl, .nil, .nil⟩
  | @cons field field' rest rest' hfield _ ih =>
    obtain ⟨name, body⟩ := field
    obtain ⟨_, body'⟩ := field'
    obtain ⟨rfl, hbody⟩ := hfield
    refine (Mirrors.ensureFresh hctx name).bind fun _ _ _ ↦ ?_
    refine (hbody.infer hctx).bind fun defined defined' hdefined ↦ ?_
    refine (Mirrors.normalized hctx hdefined).bind fun value value' hvalue ↦ ?_
    refine (Mirrors.subst hearlier hdefined.2.2).bind fun member member' hmember ↦ ?_
    refine (ih (Ctx.alike_bind hctx name hvalue) (hearlier.insert name hvalue.2.2)).bind
      fun found found' hfound ↦ ?_
    obtain ⟨rank, types, members⟩ := found
    obtain ⟨_, types', members'⟩ := found'
    obtain ⟨rfl, htypes, hmembers⟩ := hfound
    dsimp only
    rw [← hvalue.1]
    exact .pure ⟨rfl, .cons _ name hvalue.2.1 htypes, .cons hmember hmembers⟩

theorem checkMembers_mirrors (h : MirroredFields M fields fields') {types types' : Telescope}
    (htypes : types.Alike M.constants types') (position : Nat) (hctx : alike M.constants ctx ctx')
    {earlier earlier' : Substitution} (hearlier : AlikeBindings M.constants earlier earlier') :
    M.Mirrors (checkMembers fuel position ctx earlier fields types)
      (checkMembers fuel position ctx' earlier' fields' types') := by
  induction h generalizing ctx ctx' earlier earlier' types types' position with
  | nil => exact .pure .nil
  | @cons field field' rest rest' hfield _ ih =>
    obtain ⟨name, body⟩ := field
    obtain ⟨_, body'⟩ := field'
    obtain ⟨rfl, hbody⟩ := hfield
    cases htypes with
    | nil => exact .pure .nil
    | @cons rank label type type' types types' htype htypes =>
      have hmembers : M.Mirrors (do
          Check.ensureFresh ctx name
          let expected ← Check.normalized fuel ctx ⟨rank + 1, .univ rank, type⟩
          let elaborated ← body.check ctx expected
          let value ← Check.normalized fuel ctx ⟨rank, expected.term, elaborated⟩
          let member ← Check.subst earlier elaborated
          let members ← checkMembers fuel (position + 1) (ctx.bind name value)
            (Substitution.insert earlier name value.term) rest types
          return member :: members : Check σ κ (List Core))
          (do
          Check.ensureFresh ctx' name
          let expected ← Check.normalized fuel ctx' ⟨rank + 1, .univ rank, type'⟩
          let elaborated ← body'.check ctx' expected
          let value ← Check.normalized fuel ctx' ⟨rank, expected.term, elaborated⟩
          let member ← Check.subst earlier' elaborated
          let members ← checkMembers fuel (position + 1) (ctx'.bind name value)
            (Substitution.insert earlier' name value.term) rest' types'
          return member :: members : Check σ' κ' (List Core)) := by
        refine (Mirrors.ensureFresh hctx name).bind fun _ _ _ ↦ ?_
        refine (Mirrors.normalized hctx (Classified.alike_isType rank htype)).bind
          fun expected expected' hexpected ↦ ?_
        refine (hbody.check hctx hexpected).bind fun t t' ht ↦ ?_
        have hjudgement : alike M.constants (⟨rank, expected.term, t⟩ : Classified Core)
            ⟨rank, expected'.term, t'⟩ := ⟨rfl, hexpected.2.2, ht⟩
        refine (Mirrors.normalized hctx hjudgement).bind fun value value' hvalue ↦ ?_
        refine (Mirrors.subst hearlier ht).bind fun member member' hmember ↦ ?_
        refine (ih htypes (position + 1) (Ctx.alike_bind hctx name hvalue)
          (hearlier.insert name hvalue.2.2)).bind fun members members' hmembers ↦ ?_
        exact .pure (.cons hmember hmembers)
      rw [checkMembers, checkMembers]
      split
      · exact Mirrors.reject.bind fun _ _ _ ↦ hmembers
      · exact hmembers

theorem Telescope.Alike.length_eq {S : Value → Prop} {types types' : Telescope}
    (h : types.Alike S types') : types.length = types'.length := by
  cases h with
  | nil => rfl
  | cons _ _ _ hrest => exact congrArg (· + 1) hrest.length_eq

theorem recordRule_mirrored (h : MirroredFields M fields fields') :
    (recordRule fuel self fields).Mirrored M (recordRule fuel self' fields') where
  infer hctx := by
    refine (inferMembers_mirrors h hctx .nil).bind fun found found' hfound ↦ ?_
    obtain ⟨rank, types, members⟩ := found
    obtain ⟨_, types', members'⟩ := found'
    obtain ⟨rfl, htypes, hmembers⟩ := hfound
    exact .pure ⟨rfl, .signature htypes, .record hmembers⟩
  check {ctx ctx'} hctx _ _ hexpected := by
    refine (Mirrors.normalize hctx hexpected.2.2).bind fun kind kind' hkind ↦ ?_
    cases hkind with
    | @signature types types' htypes =>
      have hmembers : M.Mirrors
          (do return .record (← checkMembers fuel 0 ctx [] fields types) : Check σ κ Core)
          (do return .record (← checkMembers fuel 0 ctx' [] fields' types') : Check σ' κ' Core) :=
        (checkMembers_mirrors h htypes 0 hctx .nil).bind fun _ _ hmembers ↦
          .pure (Core.Alike.record hmembers)
      dsimp only
      rw [← htypes.length_eq, ← h.length_eq]
      split
      · exact Mirrors.reject.bind fun _ _ _ ↦ hmembers
      · exact hmembers
    | _ => exact .reject

theorem findMember?_alike {S : Value → Prop} {record record' : Classified Core}
    (hrecord : alike S record record') (name : String) {types types' : Telescope}
    (htypes : types.Alike S types') (position : Nat) {earlier earlier' : Substitution}
    (hearlier : AlikeBindings S earlier earlier') :
    alike S (findMember? record name position earlier types)
      (findMember? record' name position earlier' types') := by
  cases htypes with
  | nil => exact .none
  | cons rank label htype hrest =>
    unfold findMember?
    split
    · exact .some ⟨rfl, htype.subst hearlier, rfl⟩
    · refine findMember?_alike hrecord name hrest (position + 1) (hearlier.insert label ?_)
      rw [Core.project, Core.project, ← hrecord.1]
      exact .proj _ _ hrecord.2.1 hrecord.2.2

theorem inferAccess_mirrors {operator : Judged σ κ} {operator' : Judged σ' κ'} (name : String)
    (hoperator : operator.Mirrored M operator') (hctx : alike M.constants ctx ctx') :
    M.Mirrors (inferAccess fuel operator name ctx) (inferAccess fuel operator' name ctx') := by
  refine (hoperator.infer hctx).bind fun found found' hfound ↦ ?_
  refine (Mirrors.normalize hctx hfound.2.1).bind fun kind kind' hkind ↦ ?_
  cases hkind with
  | @signature types types' htypes =>
    have hrecord : alike M.constants (⟨found.rank, .signature types, found.term⟩ : Classified Core)
        ⟨found'.rank, .signature types', found'.term⟩ :=
      ⟨hfound.1, .signature htypes, hfound.2.2⟩
    have hmember := findMember?_alike hrecord name htypes 0 .nil
    dsimp only
    revert hmember
    generalize findMember? _ name 0 [] types = member
    generalize findMember? _ name 0 [] types' = member'
    intro hmember
    cases hmember with
    | none => exact .reject
    | some hmember =>
      refine (Mirrors.normalize hctx hmember.2.1).bind fun type type' htype ↦ ?_
      refine .pure ⟨hmember.1, htype, ?_⟩
      dsimp only [Core.project]
      rw [← hfound.1, hmember.2.2]
      exact .proj _ _ (.signature htypes) hfound.2.2
  | _ => exact .reject

end Records

/-! ### All terms -/

/-- The same fuel, and mirrored answers to every request. -/
structure Host.Mirrored {σ σ' κ κ' : Type} (M : Mirror σ σ' κ) (host : Host σ κ)
    (host' : Host σ' κ') : Prop where
  fuel : host.fuel = host'.fuel
  resolve : ∀ filename,
    Follows M.progress M.causes (alike M.constants) (host.resolve filename) (host'.resolve filename)

/-- What is known of constants holds of the constants that are mentioned, and requests for the
imports that are mentioned have mirrored answers. -/
def Mention.Known {σ σ' κ κ' : Type} (M : Mirror σ σ' κ) (host : Host σ κ) (host' : Host σ' κ') :
    Mention → Prop
  | .identifier _ => True
  | .constant content => alike M.constants content content
  | .imported filename =>
    Follows M.progress M.causes (alike M.constants) (host.resolve filename) (host'.resolve filename)

section Terms

variable {σ σ' κ κ' : Type} {M : Mirror σ σ' κ} {host : Host σ κ} {host' : Host σ' κ'}

mutual

theorem Term.rule_mirrored (hfuel : host.fuel = host'.fuel) :
    (t : Term) → (∀ m ∈ t.mentions, m.Known M host host') → (t.rule host).Mirrored M (t.rule host')
  | .univ rank, _ => by
    unfold Term.rule
    rw [← hfuel]
    refine ⟨fun _ ↦ .pure ⟨rfl, .univ _, .univ _⟩, fun hctx _ _ hexpected ↦ ?_⟩
    refine (Mirrors.normalize hctx hexpected.2.2).bind fun kind kind' hkind ↦ ?_
    cases hkind with
    | univ n =>
      dsimp only
      split
      · exact .pure (.univ rank)
      · exact .reject
    | _ => exact .reject
  | .var name, _ => by
    unfold Term.rule
    rw [← hfuel]
    refine mirrored_of_infer fun hctx ↦ ?_
    exact (Mirrors.lookup hctx name).bind fun _ _ hj ↦ .pure ⟨hj.1, hj.2.1, .var name⟩
  | .lam param body, h => by
    unfold Term.rule
    rw [← hfuel]
    exact lambdaRule_mirrored param
      (body.rule_mirrored hfuel (List.forall_mem_cons.mp h).2).logged
  | .typedLam param type body, h => by
    obtain ⟨htype, hbody⟩ := List.forall_mem_append.mp (List.forall_mem_cons.mp h).2
    unfold Term.rule
    rw [← hfuel]
    exact typedLambdaRule_mirrored param (type.rule_mirrored hfuel htype).logged
      (body.rule_mirrored hfuel hbody).logged
  | .app operator argument, h => by
    obtain ⟨hoperator, hargument⟩ := List.forall_mem_append.mp h
    have hfunction := operator.rule_mirrored hfuel hoperator
    have hargument := (argument.rule_mirrored hfuel hargument).logged
    cases operator with
    | lam param body =>
      have hbody := (body.rule_mirrored hfuel (List.forall_mem_cons.mp hoperator).2).logged
      unfold Term.rule
      rw [← hfuel]
      exact appliedLambdaRule_mirrored param hfunction hbody hargument
    | typedLam param type body =>
      unfold Term.rule
      rw [← hfuel]
      exact appliedTypedLambdaRule_mirrored hfunction hargument
    | _ =>
      unfold Term.rule
      rw [← hfuel]
      exact applicationRule_mirrored hfunction.logged hargument
  | .quant polarity bound name body, h => by
    obtain ⟨h, hbody⟩ := List.forall_mem_append.mp h
    have hbody := (body.rule_mirrored hfuel hbody).logged
    unfold Term.rule
    rw [← hfuel]
    refine quantifierRule_mirrored fun hctx ↦ ?_
    exact bound.inferQuantifier_mirrors hfuel (List.forall_mem_append.mp h).2 polarity name hbody
      hctx
  | .signature members, h => by
    have hmembers := members.judged_mirrored hfuel h
    unfold Term.rule
    rw [← hfuel]
    exact ⟨fun hctx ↦ inferSignature_mirrors hmembers hctx, fun hctx _ _ hexpected ↦
      checkTypeByInference_mirrors hctx (inferSignature_mirrors hmembers hctx) hexpected⟩
  | .record members, h => by
    unfold Term.rule
    rw [← hfuel]
    exact recordRule_mirrored (members.judged_mirrored hfuel h)
  | .access operator name, h => by
    have hoperator := (operator.rule_mirrored hfuel (List.forall_mem_cons.mp h).2).logged
    unfold Term.rule
    rw [← hfuel]
    exact ⟨fun hctx ↦ inferAccess_mirrors name hoperator hctx, fun hctx _ _ hexpected ↦
      checkTypeByInference_mirrors hctx (inferAccess_mirrors name hoperator hctx) hexpected⟩
  | .danglingAccess _, _ | .generic _ _, _ => by
    unfold Term.rule
    exact ⟨fun _ ↦ .reject, fun _ _ _ _ ↦ .reject⟩
  | .anno type term, h => by
    obtain ⟨htype, hterm⟩ := List.forall_mem_append.mp h
    have htype := (type.rule_mirrored hfuel htype).logged
    have hterm := (term.rule_mirrored hfuel hterm).logged
    unfold Term.rule
    rw [← hfuel]
    refine ⟨fun hctx ↦ ?_, fun hctx _ _ hexpected ↦ ?_⟩
    · refine (htype.declare hctx anonymous).bind fun declared declared' hdeclared ↦ ?_
      refine (hterm.check hctx (Classified.alike_typeOf hdeclared)).bind fun t t' ht ↦ ?_
      exact .pure ⟨hdeclared.1, hdeclared.2.1, ht⟩
    · refine (htype.declare hctx anonymous).bind fun declared declared' hdeclared ↦ ?_
      refine (Mirrors.convert (Ctx.alike_values hctx) (Classified.alike_typeOf hdeclared)
        hexpected).bind fun _ _ _ ↦ ?_
      exact hterm.check hctx hexpected
  | .letIn name definition body, h => by
    obtain ⟨hdefinition, hbody⟩ := List.forall_mem_append.mp (List.forall_mem_cons.mp h).2
    unfold Term.rule
    rw [← hfuel]
    exact letRule_mirrored (definition.rule_mirrored hfuel hdefinition).logged
      (body.rule_mirrored hfuel hbody).logged name
  | .const content, h => by
    have hcontent : alike M.constants content content :=
      h (.constant content) (by simp [Term.mentions])
    unfold Term.rule
    rw [← hfuel]
    exact mirrored_of_infer fun _ ↦ .pure ⟨rfl, hcontent.2.1, .const hcontent.2.2.2⟩
  | .typeOf term, h => by
    have hterm := (term.rule_mirrored hfuel h).logged
    unfold Term.rule
    rw [← hfuel]
    refine mirrored_of_infer fun hctx ↦ ?_
    exact (hterm.infer hctx).bind fun _ _ hj ↦ .pure (Classified.alike_typeOf hj)
  | .importing filename, h => by
    unfold Term.rule importRule
    rw [← hfuel]
    refine mirrored_of_infer fun hctx ↦ ?_
    have himport : M.Mirrors
        (Run.mapError (.importFailed filename) (host.resolve filename))
        (Run.mapError (.importFailed filename) (host'.resolve filename)) :=
      (h (.imported filename) (by simp [Term.mentions])).mapError fun _ h ↦ h
    refine himport.bind fun imported imported' himported ↦ ?_
    refine .pure ⟨himported.1, himported.2.1, ?_⟩
    dsimp only [Classified.map]
    rw [← himported.2.2.1]
    exact .const himported.2.2.2

theorem Bound.inferQuantifier_mirrors (hfuel : host.fuel = host'.fuel) :
    (bound : Bound) → (∀ m ∈ bound.mentions, m.Known M host host') → (polarity : Polarity) →
      (name : Option String) → {body : Judged σ κ} → {body' : Judged σ' κ'} →
      body.Mirrored M body' → {ctx ctx' : Ctx} → alike M.constants ctx ctx' →
      M.Mirrors (bound.inferQuantifier host polarity name body ctx)
        (bound.inferQuantifier host' polarity name body' ctx')
  | .unbounded, _, polarity, name, _, _, hbody, _, _, hctx =>
    inferUnbounded_mirrors polarity name hbody hctx
  | .type type, h, polarity, name, _, _, hbody, _, _, hctx => by
    unfold Bound.inferQuantifier
    rw [← hfuel]
    exact inferTypeBound_mirrors polarity name (type.rule_mirrored hfuel h).logged hbody hctx
  | .typeClass cls, h, polarity, name, _, _, hbody, _, _, hctx => by
    unfold Bound.inferQuantifier
    rw [← hfuel]
    exact inferClassBound_mirrors polarity name (cls.rule_mirrored hfuel h).logged hbody hctx

theorem Fields.judged_mirrored (hfuel : host.fuel = host'.fuel) :
    (fields : Fields) → (∀ m ∈ fields.mentions, m.Known M host host') →
      MirroredFields M (fields.judged host) (fields.judged host')
  | .nil, _ => .nil
  | .cons name term rest, h => by
    obtain ⟨hterm, hrest⟩ := List.forall_mem_append.mp (List.forall_mem_cons.mp h).2
    exact .cons ⟨rfl, (term.rule_mirrored hfuel hterm).logged⟩ (rest.judged_mirrored hfuel hrest)

end

/-- A program, elaborated in two hosts. -/
theorem checkProgram_mirrors (hfuel : host.fuel = host'.fuel) {env env' : Env (Classified Core)}
    (henv : alike M.constants env env') {t : Term} (ht : ∀ m ∈ t.mentions, m.Known M host host') :
    M.Mirrors (checkProgram host env t) (checkProgram host' env' t) :=
  (t.rule_mirrored hfuel ht).logged.infer henv

/-- Nothing has to be known of constants, and all requests are mirrored. -/
theorem Host.Mirrored.known (hhost : host.Mirrored M host') (hconstants : ∀ v, M.constants v) :
    (m : Mention) → m.Known M host host'
  | .identifier _ => trivial
  | .constant content => Likeness.alike_refl hconstants content
  | .imported filename => hhost.resolve filename

/-- What every request keeps, elaboration keeps, however it ends. -/
theorem checkProgram_keeps {I : σ → Prop}
    (hI : ∀ filename s, I s.host → I ((host.resolve filename).start s).2.host)
    (env : Env (Classified Core)) (t : Term) (s : Progress σ) (hs : I s.host) :
    I ((checkProgram host env t).start s).2.host := by
  -- the property is traced back in its negated form
  let M : Mirror σ σ κ :=
    ⟨⟨fun _ _ ↦ False, fun s ↦ ¬ I s⟩, fun _ ↦ True, fun _ ↦ True, fun _ _ _ ↦ trivial⟩
  have hhost : host.Mirrored M host :=
    ⟨rfl, fun filename s hsettled ↦ ⟨fun h ↦ hsettled (hI filename s h), fun _ h ↦ h.elim⟩⟩
  by_contra hnot
  have henv : alike M.constants env env := Likeness.alike_refl (fun _ ↦ trivial) env
  exact (checkProgram_mirrors rfl henv (fun m _ ↦ hhost.known (fun _ ↦ trivial) m) s hnot).1 hs

end Terms

end RankedTT
