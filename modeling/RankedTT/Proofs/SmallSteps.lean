import RankedTT.Proofs.Convertibility

/-!
Single steps. A step contracts one applied lambda or one projected record, at any place in a term.
What parallel reduction does at once can be done in single steps, so the normalizer, if no name is
captured, gets from a term to its normal form by single steps.
-/

set_option autoImplicit false
set_option relaxedAutoImplicit false

namespace RankedTT

namespace Nameless

open Relation

/-- One contraction: at the top, or in one part of the term. -/
inductive Step : Nameless → Nameless → Prop
  | beta (rank : Nat) (type body operand : Nameless) :
      Step (app rank type (lam body) operand) (body.inst operand)
  | select (rank : Nat) (type : Nameless) {members member : Nameless} {index : Nat}
      (h : members.nth index = some member) :
      Step (proj rank type (record members) index) member
  | domain (polarity : Polarity) (rank : Nat) {domain domain' : Nameless} (codomain : Nameless)
      (h : Step domain domain') :
      Step (quant polarity rank domain codomain) (quant polarity rank domain' codomain)
  | codomain (polarity : Polarity) (rank : Nat) (domain : Nameless) {codomain codomain' : Nameless}
      (h : Step codomain codomain') :
      Step (quant polarity rank domain codomain) (quant polarity rank domain codomain')
  | signature {members members' : Nameless} (h : Step members members') :
      Step (signature members) (signature members')
  | declared (rank : Nat) {type type' : Nameless} (name : String) (rest : Nameless)
      (h : Step type type') : Step (declare rank type name rest) (declare rank type' name rest)
  | rest (rank : Nat) (type : Nameless) (name : String) {rest rest' : Nameless}
      (h : Step rest rest') : Step (declare rank type name rest) (declare rank type name rest')
  | lam {body body' : Nameless} (h : Step body body') : Step (lam body) (lam body')
  | record {members members' : Nameless} (h : Step members members') :
      Step (record members) (record members')
  | head {head head' : Nameless} (tail : Nameless) (h : Step head head') :
      Step (cons head tail) (cons head' tail)
  | tail (head : Nameless) {tail tail' : Nameless} (h : Step tail tail') :
      Step (cons head tail) (cons head tail')
  | appType (rank : Nat) {type type' : Nameless} (operator operand : Nameless)
      (h : Step type type') :
      Step (app rank type operator operand) (app rank type' operator operand)
  | operator (rank : Nat) (type : Nameless) {operator operator' : Nameless} (operand : Nameless)
      (h : Step operator operator') :
      Step (app rank type operator operand) (app rank type operator' operand)
  | operand (rank : Nat) (type operator : Nameless) {operand operand' : Nameless}
      (h : Step operand operand') :
      Step (app rank type operator operand) (app rank type operator operand')
  | projType (rank index : Nat) {type type' : Nameless} (operator : Nameless)
      (h : Step type type') :
      Step (proj rank type operator index) (proj rank type' operator index)
  | projected (rank index : Nat) (type : Nameless) {operator operator' : Nameless}
      (h : Step operator operator') :
      Step (proj rank type operator index) (proj rank type operator' index)

/-- Zero or more steps. -/
abbrev Steps : Nameless → Nameless → Prop := ReflTransGen Step

namespace Steps

theorem quant (polarity : Polarity) (rank : Nat) {domain domain' codomain codomain' : Nameless}
    (hdomain : Steps domain domain') (hcodomain : Steps codomain codomain') :
    Steps (quant polarity rank domain codomain) (quant polarity rank domain' codomain') :=
  (hdomain.lift (Nameless.quant polarity rank · codomain)
    fun _ _ h ↦ .domain polarity rank codomain h).trans
  (hcodomain.lift (Nameless.quant polarity rank domain' ·)
    fun _ _ h ↦ .codomain polarity rank domain' h)

theorem signature {members members' : Nameless} (h : Steps members members') :
    Steps (signature members) (signature members') :=
  h.lift Nameless.signature fun _ _ h ↦ .signature h

theorem declare (rank : Nat) (name : String) {type type' rest rest' : Nameless}
    (htype : Steps type type') (hrest : Steps rest rest') :
    Steps (declare rank type name rest) (declare rank type' name rest') :=
  (htype.lift (Nameless.declare rank · name rest) fun _ _ h ↦ .declared rank name rest h).trans
  (hrest.lift (Nameless.declare rank type' name ·) fun _ _ h ↦ .rest rank type' name h)

theorem lam {body body' : Nameless} (h : Steps body body') : Steps (lam body) (lam body') :=
  h.lift Nameless.lam fun _ _ h ↦ .lam h

theorem record {members members' : Nameless} (h : Steps members members') :
    Steps (record members) (record members') :=
  h.lift Nameless.record fun _ _ h ↦ .record h

theorem cons {head head' tail tail' : Nameless} (hhead : Steps head head')
    (htail : Steps tail tail') : Steps (cons head tail) (cons head' tail') :=
  (hhead.lift (Nameless.cons · tail) fun _ _ h ↦ .head tail h).trans
  (htail.lift (Nameless.cons head' ·) fun _ _ h ↦ .tail head' h)

theorem app (rank : Nat) {type type' operator operator' operand operand' : Nameless}
    (htype : Steps type type') (hoperator : Steps operator operator')
    (hoperand : Steps operand operand') :
    Steps (app rank type operator operand) (app rank type' operator' operand') := by
  have hleft : Steps (.app rank type operator operand) (.app rank type' operator operand) :=
    htype.lift (Nameless.app rank · operator operand)
      fun _ _ h ↦ .appType rank operator operand h
  have hmiddle : Steps (.app rank type' operator operand) (.app rank type' operator' operand) :=
    hoperator.lift (Nameless.app rank type' · operand)
      fun _ _ h ↦ .operator rank type' operand h
  have hright : Steps (.app rank type' operator' operand) (.app rank type' operator' operand') :=
    hoperand.lift (Nameless.app rank type' operator' ·)
      fun _ _ h ↦ .operand rank type' operator' h
  exact hleft.trans (hmiddle.trans hright)

theorem proj (rank index : Nat) {type type' operator operator' : Nameless}
    (htype : Steps type type') (hoperator : Steps operator operator') :
    Steps (proj rank type operator index) (proj rank type' operator' index) :=
  (htype.lift (Nameless.proj rank · operator index) fun _ _ h ↦ .projType rank index operator h).trans
  (hoperator.lift (Nameless.proj rank type' · index) fun _ _ h ↦ .projected rank index type' h)

end Steps

/-- Contract the redexes of a parallel step one after the other, inner ones first. -/
theorem Par.steps {s t : Nameless} (h : Par s t) : Steps s t := by
  induction h with
  | univ | const | var | nil => exact .refl
  | quant polarity rank _ _ hdomain hcodomain =>
    exact Steps.quant polarity rank hdomain hcodomain
  | signature _ h => exact Steps.signature h
  | declare rank name _ _ htype hrest => exact Steps.declare rank name htype hrest
  | lam _ h => exact Steps.lam h
  | record _ h => exact Steps.record h
  | cons _ _ hhead htail => exact Steps.cons hhead htail
  | app rank _ _ _ htype hoperator hoperand => exact Steps.app rank htype hoperator hoperand
  | proj rank index _ _ htype hoperator => exact Steps.proj rank index htype hoperator
  | beta rank type _ _ hbody hoperand =>
    exact (Steps.app rank .refl (Steps.lam hbody) hoperand).tail (.beta rank type _ _)
  | select rank type _ hmember hmembers =>
    exact (Steps.proj rank _ .refl (Steps.record hmembers)).tail (.select rank type hmember)

theorem Reduces.steps {s t : Nameless} (h : Reduces s t) : Steps s t := by
  induction h with
  | refl => exact .refl
  | tail _ hstep ih => exact ih.trans hstep.steps

end Nameless

open Nameless Run

/-! ### Normalization -/

/-- A term without record types: no name is that of a record member. -/
def Core.Unlabelled (t : Core) : Prop := ∀ l, (.label, l) ∉ t.names

/-- No value of a name in scope has a record type. -/
def NormEnv.Unlabelled (env : NormEnv) : Prop :=
  ∀ x, Env.maps env x = true → (NormEnv.image env x).Unlabelled

theorem Core.Unlabelled.segregates {t : Core} (h : t.Unlabelled) :
    t.Segregates fun _ ↦ False := by
  intro r x hx
  rw [iff_false]
  rintro rfl
  exact h x hx

theorem NormEnv.Unlabelled.segregates {env : NormEnv} (h : env.Unlabelled) :
    env.Segregates fun _ ↦ False :=
  fun x hx _ _ ↦ (h x hx).segregates

/-- A test for names below `c`: names that begin with an underscore are the generated ones. -/
theorem Core.NamesBelow.of_names {c : Nat} {t : Core}
    (h : ∀ entry ∈ t.names, entry ≠ (.reference, anonymous) ∧
      (entry.2.toList.head? ≠ some '_' ∨ ∃ k < c, entry.2 = generatedName k)) :
    t.NamesBelow c where
  named hmem := (h _ hmem).1 rfl
  below r k hmem := by
    rcases (h _ hmem).2 with hhead | ⟨m, hm, hname⟩
    · exact absurd (head?_generatedName k) hhead
    · rw [generatedName_injective hname]
      exact hm

theorem NormEnv.NamesBelow.of_entries {c : Nat} {env : NormEnv}
    (h : ∀ entry ∈ env, (∀ y ∈ entry.2.freeNames, Env.maps env y = true) ∧
      entry.2.NamesBelow c) : env.NamesBelow c where
  inScope _ hx := (h _ (NormEnv.Plain.mem_of_maps hx)).1
  values _ hx _ := (h _ (NormEnv.Plain.mem_of_maps hx)).2

theorem NormEnv.Unlabelled.of_entries {env : NormEnv}
    (h : ∀ entry ∈ env, entry.2.Unlabelled) : env.Unlabelled :=
  fun _ hx ↦ h _ (NormEnv.Plain.mem_of_maps hx)

/-- What the substitution of an environment puts in has no anonymous variable. -/
theorem NormEnv.NamesBelow.avoidsAnonymous {c : Nat} {env : NormEnv} (h : env.NamesBelow c) :
    Substitution.AvoidsAnonymous env := by
  intro x hx hmem
  change anonymous ∈ (NormEnv.image env x).freeNames at hmem
  by_cases hmaps : Env.maps env x = true
  · exact (h.values x hmaps hx).ne_anonymous hmem rfl
  · rw [NormEnv.image_of_not_maps hmaps, Core.freeNames, List.mem_singleton] at hmem
    exact hx hmem.symm

/-- The normalizer performs reduction steps only. In the term, the names in scope are replaced by
their values, all at once and without capture; from there one redex after the other is contracted,
and this ends at the normal form. Free names of values have to be in scope, and there is no record
type, no anonymous variable, and no generated name that the counter has not passed yet. -/
theorem Core.steps_of_normalize {fuel c c' : Nat} {env : NormEnv} {t n : Core}
    (henv : env.NamesBelow c) (ht : t.NamesBelow c) (henvTypes : env.Unlabelled)
    (htTypes : t.Unlabelled) (h : (t.normalize fuel env).Returns c n c') :
    (t.subst env).IsInstanceOf t env ∧ Steps ((t.subst env).nameless []) (n.nameless []) := by
  have hinstance : (t.subst env).IsInstanceOf t env :=
    Core.subst_isInstanceOf henv.avoidsAnonymous fun l hl ↦ absurd hl (htTypes l)
  have hfree : (Call.core env t c).CaptureFree :=
    Call.Tame.captureFree (L := fun _ ↦ False) (by simp [OriginalLabels])
      ⟨⟨henv, henvTypes.segregates⟩, ⟨ht, htTypes.segregates⟩⟩
  have hreduces : Reduces (t.meaning (named (NormEnv.image env))) (n.meaning .var) :=
    (Core.normalizes_of_returns h).reduces hfree
      fun x _ ↦ ((NormEnv.image env x).meaning_var).symm
  rw [n.meaning_var] at hreduces
  refine ⟨hinstance, ?_⟩
  rw [hinstance]
  exact hreduces.steps

/-- A function in scope is applied under a binder with the name of another variable in scope. The
binder and the parameter inside the function are kept apart. -/
theorem Core.steps_of_normalize_renamed :
    let env : NormEnv :=
      [("x", .var "x"), ("first", .lam "y" none (.lam "x" none (.proj 0 (.var "x") (.var "y") 2)))]
    let t : Core := .lam "x" none (.proj 0 (.univ 0) (.record
      [.var (generatedName 2), .app 0 (.univ 0) (.var "first") (.var "x")]) 1)
    let n : Core :=
      .lam (generatedName 3) none (.lam "x" none (.proj 0 (.var "x") (.var (generatedName 3)) 2))
    env.NamesBelow 3 ∧ t.NamesBelow 3 ∧ env.Unlabelled ∧ t.Unlabelled ∧
      (t.normalize 9 env).Returns 3 n 4 ∧
      (t.subst env).IsInstanceOf t env ∧ Steps ((t.subst env).nameless []) (n.nameless []) := by
  intro env t n
  have henv : env.NamesBelow 3 := by
    refine .of_entries fun entry hentry ↦ ?_
    simp only [env, List.mem_cons, List.not_mem_nil, or_false] at hentry
    rcases hentry with rfl | rfl
    · exact ⟨by decide, .of_names (by decide)⟩
    · exact ⟨by decide, .of_names (by decide)⟩
  have ht : t.NamesBelow 3 := .of_names (by decide)
  have henvTypes : env.Unlabelled := by
    refine .of_entries fun entry hentry ↦ ?_
    simp only [env, List.mem_cons, List.not_mem_nil, or_false] at hentry
    rcases hentry with rfl | rfl <;> simp [Core.Unlabelled, Core.names]
  have htTypes : t.Unlabelled := by simp [t, Core.Unlabelled, Core.names, Core.namesMembers]
  have hnormalize : (t.normalize 9 env).Returns 3 n 4 := rfl
  exact ⟨henv, ht, henvTypes, htTypes, hnormalize,
    Core.steps_of_normalize henv ht henvTypes htTypes hnormalize⟩

end RankedTT
