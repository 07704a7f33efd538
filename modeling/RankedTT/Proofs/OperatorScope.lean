import RankedTT.Proofs.OperatorNormalForms
import RankedTT.Proofs.Scope

/-!
Names of operations in elaborated terms and in contexts. Below an anonymous binder its name is no
longer the symbol for multiplication. Elaborated terms have names of operations where they are in
scope; types that were found, and all that is normalized in a context where they are in scope, have
none, so that comparing two of them has the same outcome as comparing what they resolve to.
-/

set_option autoImplicit false
set_option relaxedAutoImplicit false

namespace RankedTT

open Prelude (operator?)
open Run

/-! ### Names of operations in elaborated terms -/

/-- The names that may be those of operations; the anonymous name may be if it is live. -/
def scope (live : Bool) : Set String := {x | x = anonymous → live = true}

/-- The names of operations that an anonymous binder may have captured. -/
def captured (live : Bool) : Set String := {x | x = anonymous ∧ live = true}

theorem scope_mono {live live' : Bool} (h : live = true → live' = true) :
    scope live ⊆ scope live' :=
  fun _ hx hanonymous ↦ h (hx hanonymous)

theorem scope_false_subset (live : Bool) : scope false ⊆ scope live := scope_mono nofun

theorem captured_subset_scope (live : Bool) : captured live ⊆ scope live := fun _ hx _ ↦ hx.2

theorem anonymous_notMem_scope : anonymous ∉ scope false := fun h ↦ Bool.false_ne_true (h rfl)

namespace Core

/-- No names of operations occur. -/
def Clean : Core → Core → Prop := Resolves ∅ ∅

/-- No names of operations occur, but for those that may be captured. -/
def Found (live : Bool) : Core → Core → Prop := Resolves (captured live) (captured live)

/-- Names of operations occur where they are in scope only. -/
def Elaborates (live : Bool) : Core → Core → Prop := Resolves (scope false) (scope live)

variable {live : Bool} {t u : Core}

theorem Clean.resolves (h : Clean t u) {under free : Set String} : Resolves under free t u :=
  h.mono (Set.empty_subset _) (Set.empty_subset _)

theorem Clean.elaborates (h : Clean t u) : Elaborates live t u := h.resolves

theorem Clean.found (h : Clean t u) : Found live t u := h.resolves

theorem Found.clean (h : Found live t u)
    (hnames : live = true → (.reference, anonymous) ∉ t.names) : Clean t u :=
  h.of_not_mem fun x hx ↦ by
    obtain ⟨rfl, hlive⟩ := hx
    exact hnames hlive

theorem Found.resolves (h : Found live t u) : Resolves (scope live) (scope live) t u :=
  Resolves.mono (captured_subset_scope live) (captured_subset_scope live) h

/-- What is substituted may be captured. -/
theorem Elaborates.resolves (h : Elaborates live t u) : Resolves (scope live) (scope live) t u :=
  Resolves.mono (scope_false_subset live) subset_rfl h

/-- A quantifier that was found without names of operations. -/
theorem Clean.quant_inv {polarity : Polarity} {rank : Nat} {domain codomain : Core} {name : String}
    (h : Clean (.quant polarity rank domain name codomain) u) :
    ∃ domain' codomain', u = .quant polarity rank domain' name codomain' ∧
      (name = anonymous ∨ operator? name = none) ∧ Clean domain domain' ∧
      Clean codomain codomain' := by
  cases h with
  | arrow _ _ hdomain hcodomain => exact ⟨_, _, rfl, .inl rfl, hdomain, hcodomain⟩
  | quant _ _ hname hdomain hcodomain => exact ⟨_, _, rfl, .inr hname, hdomain, hcodomain⟩

theorem Clean.quantify {polarity : Polarity} {rank : Nat}
    {domain domain' codomain codomain' : Core} (hdomain : Clean domain domain')
    (hcodomain : Clean codomain codomain') :
    Clean (.quant polarity rank domain anonymous codomain)
      (.quant polarity rank domain' anonymous codomain') :=
  .arrow polarity rank hdomain hcodomain

end Core

open RankedTT.Core (Clean Found Elaborates)

/-- The same rank, for related types and terms. -/
structure Classified.Related {α α' : Type} (T : Core → Core → Prop) (R : α → α' → Prop)
    (j : Classified α) (k : Classified α') : Prop where
  rank : j.rank = k.rank
  type : T j.type k.type
  term : R j.term k.term

theorem Classified.related_typeOf {α α' : Type} {R : α → α' → Prop} {j : Classified α}
    {k : Classified α'} (h : j.Related Clean R k) : j.typeOf.Related Clean Clean k.typeOf := by
  refine ⟨congrArg (· + 1) h.rank, ?_, h.type⟩
  rw [typeOf, typeOf, h.rank]
  exact .univ _

/-- Two declarations of one name. -/
def Classified.Declares (name : String) (d e : Classified String) : Prop :=
  d.Related Clean (fun x y ↦ x = name ∧ y = name) e

/-! ### Contexts -/

/-- The same names in scope, for related judgements. What stands for the anonymous name does not
matter, but where it is live it is the name of an operation. -/
structure Ctx.ResolvesTo (live : Bool) (ctx ctx' : Ctx) : Prop where
  bindings : List.Forall₂ (fun entry entry' ↦ entry.1 = entry'.1 ∧
    entry.2.Related Clean (fun t u ↦ entry.1 ≠ anonymous → Clean t u) entry'.2) ctx.vars ctx'.vars
  operations : ∀ x ∈ scope live, ∀ op, operator? x = some op →
    ctx.vars.get? x = some ((Prelude.operation op).map .const)

namespace Ctx.ResolvesTo

variable {live : Bool} {ctx ctx' : Ctx}

theorem names_eq (h : Ctx.ResolvesTo live ctx ctx') :
    ctx.vars.map Prod.fst = ctx'.vars.map Prod.fst := by
  obtain ⟨vars⟩ := ctx
  obtain ⟨vars'⟩ := ctx'
  obtain ⟨hbindings, -⟩ := h
  change List.Forall₂ _ vars vars' at hbindings
  induction hbindings with
  | nil => rfl
  | cons hentry _ ih =>
    dsimp only at ih ⊢
    rw [List.map_cons, List.map_cons, hentry.1, ih]

theorem lookup_cases (h : Ctx.ResolvesTo live ctx ctx') (x : String) :
    (ctx.vars.get? x = none ∧ ctx'.vars.get? x = none) ∨
      ∃ j k, ctx.vars.get? x = some j ∧ ctx'.vars.get? x = some k ∧
        j.Related Clean (fun t u ↦ x ≠ anonymous → Clean t u) k := by
  obtain ⟨vars⟩ := ctx
  obtain ⟨vars'⟩ := ctx'
  obtain ⟨hbindings, -⟩ := h
  change List.Forall₂ _ vars vars' at hbindings
  unfold Env.get?
  induction hbindings with
  | nil => exact .inl ⟨rfl, rfl⟩
  | @cons entry entry' _ _ hentry _ ih =>
    obtain ⟨hname, hjudgement⟩ := hentry
    dsimp only at ih ⊢
    rw [List.lookup_cons, List.lookup_cons, ← hname]
    cases hx : x == entry.1 with
    | false => exact ih
    | true =>
      obtain rfl := eq_of_beq hx
      exact .inr ⟨_, _, rfl, rfl, hjudgement⟩

theorem maps_eq (h : Ctx.ResolvesTo live ctx ctx') (x : String) : ctx.maps x = ctx'.maps x := by
  unfold Ctx.maps Env.maps
  rcases h.lookup_cases x with ⟨hnone, hnone'⟩ | ⟨j, k, hj, hk, -⟩
  · rw [hnone, hnone']
  · rw [hj, hk]
    rfl

theorem values (h : Ctx.ResolvesTo live ctx ctx') :
    NormEnv.Resolves ∅ (scope live) ctx.values ctx'.values where
  scope := by
    have hvalues (c : Ctx) : c.values.map Prod.fst = c.vars.map Prod.fst := by
      simp [Ctx.values, Env.mapBindings]
    rw [hvalues, hvalues, h.names_eq]
  plain x hx := by
    unfold NormEnv.image Ctx.values
    rw [Env.get?_mapBindings, Env.get?_mapBindings]
    rcases h.lookup_cases x with ⟨hnone, hnone'⟩ | ⟨j, k, hj, hk, hjudgement⟩
    · rw [hnone, hnone']
      exact .var hx
    · rw [hj, hk]
      exact hjudgement.term (Prelude.ne_anonymous_of_operator?_eq_none hx)
  operations x hx op hop := by
    unfold NormEnv.image Ctx.values
    rw [Env.get?_mapBindings, h.operations x hx op hop]
    exact .const trivial

theorem bind (h : Ctx.ResolvesTo live ctx ctx') {name : String} (hname : operator? name = none)
    {j k : Classified Core} (hjudgement : j.Related Clean Clean k) :
    Ctx.ResolvesTo live (ctx.bind name j) (ctx'.bind name k) where
  bindings := .cons ⟨rfl, hjudgement.rank, hjudgement.type, fun _ ↦ hjudgement.term⟩ h.bindings
  operations x hx op hop := by
    rw [Ctx.bind, Env.get?_push_of_ne]
    · exact h.operations x hx op hop
    · rintro rfl
      rw [hop] at hname
      cases hname

theorem bindDeclared (h : Ctx.ResolvesTo live ctx ctx') {name : String}
    (hname : operator? name = none) {d e : Classified String} (hdeclared : d.Declares name e) :
    Ctx.ResolvesTo live (ctx.bindDeclared d) (ctx'.bindDeclared e) := by
  obtain ⟨hrank, htype, hd, he⟩ := hdeclared
  rw [Ctx.bindDeclared, Ctx.bindDeclared, hd, he]
  refine h.bind hname ⟨hrank, htype, ?_⟩
  rw [Classified.asVariable, Classified.asVariable, hd, he]
  exact .var hname

/-- An anonymous binder hides the operation with its name. -/
theorem bindAnonymous (h : Ctx.ResolvesTo live ctx ctx') {d e : Classified String}
    (hdeclared : d.Declares anonymous e) :
    Ctx.ResolvesTo false (ctx.bindDeclared d) (ctx'.bindDeclared e) := by
  obtain ⟨hrank, htype, hd, he⟩ := hdeclared
  rw [Ctx.bindDeclared, Ctx.bindDeclared, hd, he]
  refine ⟨.cons ⟨rfl, hrank, htype, fun hne ↦ absurd rfl hne⟩ h.bindings, fun x hx op hop ↦ ?_⟩
  rw [Ctx.bind, Env.get?_push_of_ne]
  · exact h.operations x (scope_false_subset live hx) op hop
  · rintro rfl
    exact anonymous_notMem_scope hx

end Ctx.ResolvesTo

/-! ### Comparison -/

section Comparison

variable {fuel : Nat} {live : Bool} {env env' : NormEnv} {j j' k k' : Classified Core}

theorem Core.Clean.alphaEq_eq {t t' u u' : Core} (h : Clean t t') (h' : Clean u u') :
    t.alphaEq u = t'.alphaEq u' :=
  h.alike.alphaEq_eq h'.alike

theorem Core.Clean.normalForm {t u : Core} (h : Clean t u) {free : Set String}
    (henv : NormEnv.Resolves ∅ free env env') :
    Agree Clean (t.normalForm fuel env) (u.normalForm fuel env') :=
  (show Core.Resolves ∅ free t u from h.resolves).normalForm (Set.empty_subset _) id henv

theorem Classified.isEqualTo_agree {free : Set String} (henv : NormEnv.Resolves ∅ free env env')
    (hj : j.Related Clean Clean j') (hk : k.Related Clean Clean k') :
    Agree Eq (isEqualTo fuel env j k) (isEqualTo fuel env' j' k') := by
  unfold isEqualTo
  rw [← hj.rank, ← hk.rank]
  split
  · exact .ok rfl
  · refine (hj.type.normalForm henv).bind fun m m' hm ↦ ?_
    refine (hk.type.normalForm henv).bind fun n n' hn ↦ ?_
    rw [hm.alphaEq_eq hn]
    split
    · exact .ok rfl
    · refine (hj.term.normalForm henv).bind fun m m' hm ↦ ?_
      refine (hk.term.normalForm henv).bind fun n n' hn ↦ ?_
      exact .ok (hm.alphaEq_eq hn)

theorem Classified.normalForm_agree {free : Set String} (henv : NormEnv.Resolves ∅ free env env')
    (hj : j.Related Clean Clean j') :
    Agree (fun _ _ ↦ True) (j.normalForm fuel env) (j'.normalForm fuel env') := by
  have hclean {t u : Core} (h : Clean t u) : Lockstep samePace Clean (t.normalize fuel env)
      (u.normalize fuel env') :=
    Core.normalize_lockstep fuel (Set.empty_subset _) id henv h.resolves
  have hboth : Lockstep samePace (fun _ _ ↦ True) (j.normalize fuel env)
      (j'.normalize fuel env') :=
    (hclean hj.type).bind fun _ _ _ ↦ (hclean hj.term).bind fun _ _ _ ↦ .pure trivial
  exact (hboth 0 0 rfl fun _ _ ↦ trivial).2

/-- Whether there is a mismatch, not which one. -/
theorem Classified.mismatch?_agree {free : Set String} (henv : NormEnv.Resolves ∅ free env env')
    (hj : j.Related Clean Clean j') (hk : k.Related Clean Clean k') :
    Agree (Option.Rel fun _ _ ↦ True) (mismatch? fuel env j k) (mismatch? fuel env' j' k') := by
  unfold mismatch?
  refine (isEqualTo_agree henv hj hk).bind fun b b' hb ↦ ?_
  subst hb
  split
  · exact .ok .none
  · refine (normalForm_agree henv hj).bind fun _ _ _ ↦ ?_
    refine (normalForm_agree henv hk).bind fun _ _ _ ↦ ?_
    exact .ok (.some trivial)

end Comparison

end RankedTT
