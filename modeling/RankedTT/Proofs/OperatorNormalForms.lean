import RankedTT.Proofs.Lockstep
import RankedTT.Proofs.Operators

/-!
Normal forms of terms that resolve to others. In an environment where the names of operations stand
for the operations, a term and the one that it resolves to are normalized in lockstep. The normal
form has no name of an operation but those that an anonymous binder has captured, since below such a
binder its name stands for itself.
-/

set_option autoImplicit false
set_option relaxedAutoImplicit false

namespace RankedTT

open Prelude (operator?)

section Resolves

variable {under : Set String}

/-- The same names in scope, for terms that resolve; the names of operations in `free` are those of
the operations. -/
structure NormEnv.Resolves (names free : Set String) (env env' : NormEnv) : Prop where
  scope : env.map Prod.fst = env'.map Prod.fst
  plain : ∀ x, operator? x = none →
    Core.Resolves names names (NormEnv.image env x) (NormEnv.image env' x)
  operations : ∀ x ∈ free, ∀ op, operator? x = some op →
    Core.Resolves names names (NormEnv.image env x) (.const (.host (.binary op)))

namespace NormEnv.Resolves

variable {names free : Set String} {env env' : NormEnv}

theorem nil : Resolves names names [] [] where
  scope := rfl
  plain _ hx := .var hx
  operations _ hmem _ hop := .operation hop hmem

theorem mono {names' free' : Set String} (h : Resolves names free env env')
    (hnames : names ⊆ names') (hfree : free' ⊆ free) : Resolves names' free' env env' where
  scope := h.scope
  plain x hx := (h.plain x hx).mono hnames hnames
  operations x hmem op hop := (h.operations x (hfree hmem) op hop).mono hnames hnames

theorem push (h : Resolves names free env env') {name : String} (hname : operator? name = none)
    {t u : Core} (ht : Core.Resolves names names t u) :
    Resolves names free (Env.push env name t) (Env.push env' name u) where
  scope := congrArg (name :: ·) h.scope
  plain x hx := by
    rw [image_push, image_push]
    split
    · exact ht
    · exact h.plain x hx
  operations x hmem op hop := by
    rw [image_push, if_neg]
    · exact h.operations x hmem op hop
    · rintro rfl
      rw [hop] at hname
      cases hname

/-- Below an anonymous binder, its name is no longer that of an operation. -/
theorem pushAnonymous (h : Resolves names free env env') {under : Set String}
    (hunder : under ⊆ free) (hcaptured : anonymous ∈ under → anonymous ∈ names) :
    Resolves names under (Env.push env anonymous (.var anonymous))
      (Env.push env' anonymous (.var anonymous)) where
  scope := congrArg (anonymous :: ·) h.scope
  plain x hx := by
    have hne := Prelude.ne_anonymous_of_operator?_eq_none hx
    rw [image_push, image_push, if_neg hne, if_neg hne]
    exact h.plain x hx
  operations x hmem op hop := by
    rw [image_push]
    split
    · rename_i hx
      subst hx
      exact .operation hop (hcaptured hmem)
    · exact h.operations x (hunder hmem) op hop

theorem length_eq (h : Resolves names free env env') : env.length = env'.length := by
  rw [← List.length_map (f := Prod.fst), h.scope, List.length_map]

theorem bind (h : Resolves names free env env') {name : String} (hname : operator? name = none)
    (c : Nat) :
    (NormEnv.bind env name c).1.1 = (NormEnv.bind env' name c).1.1 ∧
      operator? (NormEnv.bind env name c).1.1 = none ∧
      Resolves names free (NormEnv.bind env name c).1.2 (NormEnv.bind env' name c).1.2 ∧
      (NormEnv.bind env name c).2 = (NormEnv.bind env' name c).2 := by
  simp only [NormEnv.bind, NormEnv.freshName, maps_congr h.scope, freeIndex_congr h.scope,
    h.length_eq]
  split
  · exact ⟨rfl, hname, h.push hname (.var hname), rfl⟩
  · have hfresh := Prelude.operator?_generatedName
    exact ⟨rfl, hfresh _, (h.push (hfresh _) (.var (hfresh _))).push hname (.var (hfresh _)), rfl⟩

end NormEnv.Resolves

open Run

/-- Two runs of the normalizer, with the same counter. -/
def samePace : Pace Nat Nat := ⟨Eq, fun _ ↦ True⟩

/-- The counter of the normalizer is not a journal. -/
instance Run.grows_normalizer {ε α : Type} (a : Run Nat ε α) : a.Grows :=
  ⟨fun _ ↦ List.suffix_refl []⟩

theorem NormEnv.Resolves.bind_lockstep {names free : Set String} {env env' : NormEnv}
    (h : NormEnv.Resolves names free env env') {name : String} (hname : operator? name = none) :
    Lockstep samePace
      (fun b b' ↦ b.1 = b'.1 ∧ operator? b.1 = none ∧ NormEnv.Resolves names free b.2 b'.2)
      (modifyGet (NormEnv.bind env name) : Run Nat BadProjection _)
      (modifyGet (NormEnv.bind env' name) : Run Nat BadProjection _) := by
  refine .modifyGet ?_
  rintro c _ rfl
  obtain ⟨hbinder, hplain, hinner, hc⟩ := h.bind hname c
  exact ⟨hc, hbinder, hplain, hinner⟩

theorem Telescope.normalizeWith_lockstep {names free : Set String}
    {f : NormEnv → Core → Run Nat BadProjection Core}
    (hf : ∀ {env env' t u}, NormEnv.Resolves names free env env' → Core.Resolves under free t u →
      Lockstep samePace (Core.Resolves names names) (f env t) (f env' u)) {ts us : Telescope}
    (hts : Telescope.Resolves under free ts us) {env env' : NormEnv}
    (henv : NormEnv.Resolves names free env env') :
    Lockstep samePace (Telescope.Resolves names names) (ts.normalizeWith f env)
      (us.normalizeWith f env') := by
  cases ts with
  | nil =>
    cases hts
    exact .pure .nil
  | cons rank _ _ rest =>
    cases hts with
    | cons _ hname htype hrest =>
      unfold Telescope.normalizeWith
      refine .bind (hf henv htype) fun type type' htype ↦ ?_
      have hinner := henv.push hname (.var hname)
      refine .bind (Telescope.normalizeWith_lockstep hf hrest hinner) fun rest rest' hrest ↦ ?_
      exact .pure (.cons rank hname htype hrest)

/-- Normal forms have names of operations where captured ones are allowed only. -/
theorem Core.normalize_lockstep {names : Set String} (fuel : Nat) {free : Set String}
    {env env' : NormEnv} {t u : Core} (hunder : under ⊆ free)
    (hcaptured : anonymous ∈ under → anonymous ∈ names)
    (henv : NormEnv.Resolves names free env env') (ht : Core.Resolves under free t u) :
    Lockstep samePace (Core.Resolves names names) (t.normalize fuel env)
      (u.normalize fuel env') := by
  induction fuel generalizing under free env env' t u with
  | zero => exact .outOfFuel
  | succ fuel ih =>
    cases ht with
    | univ rank => exact .pure (.univ rank)
    | const h => exact .pure (.const h)
    | var hname => exact .pure (henv.plain _ hname)
    | operation hname hfree => exact .pure (henv.operations _ hfree _ hname)
    | arrow polarity rank hdomain hcodomain =>
      unfold Core.normalize
      refine .bind (ih hunder hcaptured henv hdomain) fun domain domain' hdomain ↦ ?_
      have hanonymous : Lockstep samePace
          (fun b b' ↦ b.1 = anonymous ∧ b'.1 = anonymous ∧
            NormEnv.Resolves names under b.2 b'.2)
          (modifyGet (NormEnv.bind env anonymous) : Run Nat BadProjection _)
          (modifyGet (NormEnv.bind env' anonymous) : Run Nat BadProjection _) := by
        refine .modifyGet ?_
        rintro c _ rfl
        exact ⟨rfl, rfl, rfl, henv.pushAnonymous hunder hcaptured⟩
      refine .bind hanonymous fun b b' hb ↦ ?_
      obtain ⟨hname, hname', hinner⟩ := hb
      refine .bind (ih subset_rfl hcaptured hinner hcodomain) fun codomain codomain' hcodomain ↦ ?_
      rw [hname, hname']
      exact .pure (.arrow polarity rank hdomain hcodomain)
    | quant polarity rank hname hdomain hcodomain =>
      unfold Core.normalize
      refine .bind (ih hunder hcaptured henv hdomain) fun domain domain' hdomain ↦ ?_
      refine .bind (henv.bind_lockstep hname) fun b b' hb ↦ ?_
      obtain ⟨hbinder, hplain, hinner⟩ := hb
      refine .bind (ih hunder hcaptured hinner hcodomain) fun codomain codomain' hcodomain ↦ ?_
      rw [← hbinder]
      exact .pure (.quant polarity rank hplain hdomain hcodomain)
    | signature htypes =>
      unfold Core.normalize
      refine .bind (Telescope.normalizeWith_lockstep (ih hunder hcaptured) htypes henv)
        fun types types' htypes ↦ ?_
      exact .pure (.signature htypes)
    | lam stamp stamp' hparam hbody =>
      unfold Core.normalize
      refine .bind (henv.bind_lockstep hparam) fun b b' hb ↦ ?_
      obtain ⟨hbinder, hplain, hinner⟩ := hb
      refine .bind (ih hunder hcaptured hinner hbody) fun body body' hbody ↦ ?_
      rw [← hbinder]
      exact .pure (.lam _ _ hplain hbody)
    | record hmembers =>
      unfold Core.normalize
      refine .bind (.mapM (fun _ _ ↦ ih hunder hcaptured henv)
        (Core.resolvesMembers_iff.mp hmembers)) fun members members' hmembers ↦ ?_
      exact .pure (.record (Core.resolvesMembers_iff.mpr hmembers))
    | @app _ rank type type' _ _ _ _ htype hoperator hoperand =>
      unfold Core.normalize
      refine .bind (ih hunder hcaptured henv hoperator) fun operator operator' hoperator ↦ ?_
      refine .bind (ih hunder hcaptured henv hoperand) fun operand operand' hoperand ↦ ?_
      have hstuck : Lockstep samePace (Core.Resolves names names)
          (do return .app rank (← type.normalize fuel env) operator operand)
          (do return .app rank (← type'.normalize fuel env') operator' operand') := by
        refine .bind (ih hunder hcaptured henv htype) fun type type' htype ↦ ?_
        exact .pure (.app rank htype hoperator hoperand)
      cases hoperator with
      | lam stamp stamp' hparam hbody =>
        -- The reduct consists of normal forms, so the names in it that may be captured are all.
        exact ih subset_rfl id .nil (hbody.subst subset_rfl subset_rfl (.single hparam hoperand))
      | _ => exact hstuck
    | @proj _ rank index type type' _ _ htype hoperator =>
      unfold Core.normalize
      refine .bind (ih hunder hcaptured henv hoperator) fun operator operator' hoperator ↦ ?_
      have hstuck : Lockstep samePace (Core.Resolves names names)
          (do return .proj rank (← type.normalize fuel env) operator index)
          (do return .proj rank (← type'.normalize fuel env') operator' index) := by
        refine .bind (ih hunder hcaptured henv htype) fun type type' htype ↦ ?_
        exact .pure (.proj rank index htype hoperator)
      cases hoperator with
      | @record _ members members' hmembers =>
        have hmembers := Core.resolvesMembers_iff.mp hmembers
        dsimp only
        cases hmember : members[index]? with
        | none =>
          rw [List.getElem?_eq_none_iff, hmembers.length_eq] at hmember
          rw [List.getElem?_eq_none hmember]
          exact .fail
        | some member =>
          obtain ⟨member', hmember', hresolves⟩ := exists_getElem?_of_forall₂ hmembers hmember
          rw [hmember']
          exact .pure hresolves
      | _ => exact hstuck

/-- Normal forms, computed with a counter of their own. -/
theorem Core.Resolves.normalForm {names free : Set String} {fuel : Nat} {env env' : NormEnv}
    {t u : Core} (ht : Core.Resolves under free t u) (hunder : under ⊆ free)
    (hcaptured : anonymous ∈ under → anonymous ∈ names)
    (henv : NormEnv.Resolves names free env env') :
    Agree (Core.Resolves names names) (t.normalForm fuel env) (u.normalForm fuel env') :=
  (Core.normalize_lockstep fuel hunder hcaptured henv ht 0 0 rfl fun _ _ ↦ trivial).2

end Resolves

end RankedTT
