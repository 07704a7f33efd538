import Mathlib.Logic.Relation
import RankedTT.Proofs.Nameless

/-!
Convertibility of terms up to the names of binders: the least congruence in which an applied lambda
equals its body with the operand put in, and a projection of a record equals the member. Parallel
reduction contracts any number of redexes of a term at once; every term has a complete development,
which all its parallel reducts reduce to, so reduction is confluent and convertible terms have a
common reduct.
-/

set_option autoImplicit false
set_option relaxedAutoImplicit false

namespace RankedTT.Nameless

open Relation

/-- Convertibility. -/
inductive Conv : Nameless → Nameless → Prop
  | beta (rank : Nat) (type body operand : Nameless) :
      Conv (app rank type (lam body) operand) (body.inst operand)
  | select (rank : Nat) (type : Nameless) {members member : Nameless} {index : Nat}
      (h : members.nth index = some member) :
      Conv (proj rank type (record members) index) member
  | refl (t : Nameless) : Conv t t
  | symm {s t : Nameless} (h : Conv s t) : Conv t s
  | trans {s t u : Nameless} (hst : Conv s t) (htu : Conv t u) : Conv s u
  | quant (polarity : Polarity) (rank : Nat) {domain domain' codomain codomain' : Nameless}
      (hdomain : Conv domain domain') (hcodomain : Conv codomain codomain') :
      Conv (quant polarity rank domain codomain) (quant polarity rank domain' codomain')
  | signature {members members' : Nameless} (h : Conv members members') :
      Conv (signature members) (signature members')
  | declare (rank : Nat) (name : String) {type type' rest rest' : Nameless}
      (htype : Conv type type') (hrest : Conv rest rest') :
      Conv (declare rank type name rest) (declare rank type' name rest')
  | lam {body body' : Nameless} (h : Conv body body') : Conv (lam body) (lam body')
  | record {members members' : Nameless} (h : Conv members members') :
      Conv (record members) (record members')
  | cons {head head' tail tail' : Nameless} (hhead : Conv head head') (htail : Conv tail tail') :
      Conv (cons head tail) (cons head' tail')
  | app (rank : Nat) {type type' operator operator' operand operand' : Nameless}
      (htype : Conv type type') (hoperator : Conv operator operator')
      (hoperand : Conv operand operand') :
      Conv (app rank type operator operand) (app rank type' operator' operand')
  | proj (rank index : Nat) {type type' operator operator' : Nameless} (htype : Conv type type')
      (hoperator : Conv operator operator') :
      Conv (proj rank type operator index) (proj rank type' operator' index)

/-- Parallel reduction. -/
inductive Par : Nameless → Nameless → Prop
  | univ (rank : Nat) : Par (univ rank) (univ rank)
  | const (key : ValueKey) : Par (const key) (const key)
  | var (ref : Ref) : Par (var ref) (var ref)
  | nil : Par nil nil
  | quant (polarity : Polarity) (rank : Nat) {domain domain' codomain codomain' : Nameless}
      (hdomain : Par domain domain') (hcodomain : Par codomain codomain') :
      Par (quant polarity rank domain codomain) (quant polarity rank domain' codomain')
  | signature {members members' : Nameless} (h : Par members members') :
      Par (signature members) (signature members')
  | declare (rank : Nat) (name : String) {type type' rest rest' : Nameless}
      (htype : Par type type') (hrest : Par rest rest') :
      Par (declare rank type name rest) (declare rank type' name rest')
  | lam {body body' : Nameless} (h : Par body body') : Par (lam body) (lam body')
  | record {members members' : Nameless} (h : Par members members') :
      Par (record members) (record members')
  | cons {head head' tail tail' : Nameless} (hhead : Par head head') (htail : Par tail tail') :
      Par (cons head tail) (cons head' tail')
  | app (rank : Nat) {type type' operator operator' operand operand' : Nameless}
      (htype : Par type type') (hoperator : Par operator operator')
      (hoperand : Par operand operand') :
      Par (app rank type operator operand) (app rank type' operator' operand')
  | proj (rank index : Nat) {type type' operator operator' : Nameless} (htype : Par type type')
      (hoperator : Par operator operator') :
      Par (proj rank type operator index) (proj rank type' operator' index)
  | beta (rank : Nat) (type : Nameless) {body body' operand operand' : Nameless}
      (hbody : Par body body') (hoperand : Par operand operand') :
      Par (app rank type (lam body) operand) (body'.inst operand')
  | select (rank : Nat) (type : Nameless) {members members' member : Nameless} {index : Nat}
      (hmembers : Par members members') (h : members'.nth index = some member) :
      Par (proj rank type (record members) index) member

theorem Par.refl (t : Nameless) : Par t t := by
  induction t with
  | univ rank => exact .univ rank
  | quant polarity rank _ _ hdomain hcodomain => exact .quant polarity rank hdomain hcodomain
  | signature _ h => exact .signature h
  | declare rank _ name _ htype hrest => exact .declare rank name htype hrest
  | lam _ h => exact .lam h
  | record _ h => exact .record h
  | cons _ _ hhead htail => exact .cons hhead htail
  | nil => exact .nil
  | app rank _ _ _ htype hoperator hoperand => exact .app rank htype hoperator hoperand
  | proj rank _ _ index htype hoperator => exact .proj rank index htype hoperator
  | var ref => exact .var ref
  | const key => exact .const key

theorem Par.conv {s t : Nameless} (h : Par s t) : Conv s t := by
  induction h with
  | univ | const | var | nil => exact .refl _
  | quant polarity rank _ _ hdomain hcodomain => exact .quant polarity rank hdomain hcodomain
  | signature _ h => exact .signature h
  | declare rank name _ _ htype hrest => exact .declare rank name htype hrest
  | lam _ h => exact .lam h
  | record _ h => exact .record h
  | cons _ _ hhead htail => exact .cons hhead htail
  | app rank _ _ _ htype hoperator hoperand => exact .app rank htype hoperator hoperand
  | proj rank index _ _ htype hoperator => exact .proj rank index htype hoperator
  | beta rank type _ _ hbody hoperand =>
    exact .trans (.app rank (.refl type) (.lam hbody) hoperand) (.beta rank type _ _)
  | select rank type _ hmember hmembers =>
    exact .trans (.proj rank _ (.refl type) (.record hmembers)) (.select rank type hmember)

theorem Par.nth {s t : Nameless} (h : Par s t) {i : Nat} {m : Nameless} (hm : s.nth i = some m) :
    ∃ m', t.nth i = some m' ∧ Par m m' := by
  induction h generalizing i with
  | cons hhead _ _ ih =>
    cases i with
    | zero =>
      obtain rfl : _ = m := by simpa [Nameless.nth] using hm
      exact ⟨_, rfl, hhead⟩
    | succ i => exact ih hm
  | _ => simp [Nameless.nth] at hm

theorem Par.app_cases {rank : Nat} {type operator operand u : Nameless}
    (h : Par (.app rank type operator operand) u) :
    (∃ type' operator' operand', u = .app rank type' operator' operand' ∧ Par type type' ∧
        Par operator operator' ∧ Par operand operand') ∨
      ∃ body, operator = .lam body := by
  cases h with
  | app _ htype hoperator hoperand => exact .inl ⟨_, _, _, rfl, htype, hoperator, hoperand⟩
  | beta => exact .inr ⟨_, rfl⟩

theorem Par.proj_cases {rank index : Nat} {type operator u : Nameless}
    (h : Par (.proj rank type operator index) u) :
    (∃ type' operator', u = .proj rank type' operator' index ∧ Par type type' ∧
        Par operator operator') ∨
      ∃ members members', operator = .record members ∧ Par members members' ∧
        members'.nth index = some u := by
  cases h with
  | proj _ _ htype hoperator => exact .inl ⟨_, _, rfl, htype, hoperator⟩
  | select _ _ hmembers hmember => exact .inr ⟨_, _, rfl, hmembers, hmember⟩

theorem Par.rename {s t : Nameless} (h : Par s t) (r : Nat → Nat) :
    Par (s.rename r) (t.rename r) := by
  induction h generalizing r with
  | univ | const | var | nil => exact .refl _
  | quant polarity rank _ _ hdomain hcodomain =>
    exact .quant polarity rank (hdomain r) (hcodomain _)
  | signature _ h => exact .signature (h r)
  | declare rank name _ _ htype hrest => exact .declare rank name (htype r) (hrest _)
  | lam _ h => exact .lam (h _)
  | record _ h => exact .record (h r)
  | cons _ _ hhead htail => exact .cons (hhead r) (htail r)
  | app rank _ _ _ htype hoperator hoperand => exact .app rank (htype r) (hoperator r) (hoperand r)
  | proj rank index _ _ htype hoperator => exact .proj rank index (htype r) (hoperator r)
  | beta rank type _ _ hbody hoperand =>
    rw [rename_inst]
    exact .beta rank _ (hbody _) (hoperand r)
  | select rank type _ hmember hmembers =>
    refine .select rank _ (hmembers r) ?_
    rw [rename_eq_subst, rename_eq_subst]
    exact nth_subst _ _ hmember

theorem Par.lift {τ υ : Ref → Nameless} (h : ∀ v, Par (τ v) (υ v)) (v : Ref) :
    Par (lift τ v) (lift υ v) := by
  rcases v with ⟨⟨⟩ | i⟩ | x
  · exact .refl _
  · exact (h (.bound i)).rename _
  · exact (h (.free x)).rename _

theorem Par.subst {s t : Nameless} (h : Par s t) {τ υ : Ref → Nameless}
    (hτ : ∀ v, Par (τ v) (υ v)) : Par (s.subst τ) (t.subst υ) := by
  induction h generalizing τ υ with
  | univ | const | nil => exact .refl _
  | var ref => exact hτ ref
  | quant polarity rank _ _ hdomain hcodomain =>
    exact .quant polarity rank (hdomain hτ) (hcodomain (Par.lift hτ))
  | signature _ h => exact .signature (h hτ)
  | declare rank name _ _ htype hrest => exact .declare rank name (htype hτ) (hrest (Par.lift hτ))
  | lam _ h => exact .lam (h (Par.lift hτ))
  | record _ h => exact .record (h hτ)
  | cons _ _ hhead htail => exact .cons (hhead hτ) (htail hτ)
  | app rank _ _ _ htype hoperator hoperand =>
    exact .app rank (htype hτ) (hoperator hτ) (hoperand hτ)
  | proj rank index _ _ htype hoperator => exact .proj rank index (htype hτ) (hoperator hτ)
  | beta rank type _ _ hbody hoperand =>
    rw [subst_inst]
    exact .beta rank _ (hbody (Par.lift hτ)) (hoperand hτ)
  | select rank type _ hmember hmembers =>
    exact .select rank _ (hmembers hτ) (nth_subst _ _ hmember)

theorem Par.inst {body body' a a' : Nameless} (hbody : Par body body') (ha : Par a a') :
    Par (body.inst a) (body'.inst a') := by
  refine hbody.subst fun v ↦ ?_
  rcases v with ⟨⟨⟩ | i⟩ | x
  · exact ha
  · exact .refl _
  · exact .refl _

/-! ### Complete developments -/

/-- Contract every redex of a term. -/
def develop : Nameless → Nameless
  | univ rank => univ rank
  | quant polarity rank domain codomain => quant polarity rank domain.develop codomain.develop
  | signature members => signature members.develop
  | declare rank type name rest => declare rank type.develop name rest.develop
  | lam body => lam body.develop
  | record members => record members.develop
  | cons head tail => cons head.develop tail.develop
  | nil => nil
  | app _ _ (lam body) operand => body.develop.inst operand.develop
  | app rank type operator operand => app rank type.develop operator.develop operand.develop
  | proj rank type (record members) index =>
    (members.develop.nth index).getD (proj rank type.develop (record members.develop) index)
  | proj rank type operator index => proj rank type.develop operator.develop index
  | var ref => var ref
  | const key => const key

theorem Par.develop {s t : Nameless} (h : Par s t) : Par t s.develop := by
  induction h with
  | univ | const | var | nil => exact .refl _
  | quant polarity rank _ _ hdomain hcodomain => exact .quant polarity rank hdomain hcodomain
  | signature _ h => exact .signature h
  | declare rank name _ _ htype hrest => exact .declare rank name htype hrest
  | lam _ h => exact .lam h
  | record _ h => exact .record h
  | cons _ _ hhead htail => exact .cons hhead htail
  | app rank htype hoperator hoperand ihtype ihoperator ihoperand =>
    cases hoperator with
    | lam _ =>
      cases ihoperator with
      | lam hbody => exact .beta rank _ hbody ihoperand
    | _ => exact .app rank ihtype ihoperator ihoperand
  | proj rank index htype hoperator ihtype ihoperator =>
    cases hoperator with
    | record _ =>
      cases ihoperator with
      | record hmembers =>
        rw [Nameless.develop]
        cases hmember : Nameless.nth _ index with
        | some member => exact .select rank _ hmembers hmember
        | none => exact .proj rank index ihtype (.record hmembers)
    | _ => exact .proj rank index ihtype ihoperator
  | beta rank type _ _ hbody hoperand => exact hbody.inst hoperand
  | select rank type _ hmember ih =>
    obtain ⟨m, hm, hpar⟩ := ih.nth hmember
    rw [Nameless.develop, hm]
    exact hpar

/-! ### Confluence -/

/-- Any number of parallel steps. -/
abbrev Reduces : Nameless → Nameless → Prop := ReflTransGen Par

theorem Reduces.conv {s t : Nameless} (h : Reduces s t) : Conv s t := by
  induction h with
  | refl => exact .refl _
  | tail _ hstep ih => exact ih.trans hstep.conv

theorem Reduces.confluent {s t u : Nameless} (hst : Reduces s t) (hsu : Reduces s u) :
    Join Reduces t u :=
  church_rosser (fun a _ _ hb hc ↦ ⟨a.develop, .single hb.develop, .single hc.develop⟩) hst hsu

/-- Reduction of one argument of a constructor. -/
theorem Reduces.congr {s t : Nameless} (f : Nameless → Nameless)
    (hf : ∀ a b, Par a b → Par (f a) (f b)) (h : Reduces s t) : Reduces (f s) (f t) :=
  h.lift f hf

theorem Reduces.congr₂ {s s' t t' : Nameless} (f : Nameless → Nameless → Nameless)
    (hf : ∀ a a' b b', Par a a' → Par b b' → Par (f a b) (f a' b')) (hs : Reduces s s')
    (ht : Reduces t t') : Reduces (f s t) (f s' t') := by
  have hleft := hs.congr (fun a ↦ f a t) fun a a' ha ↦ hf a a' t t ha (.refl t)
  have hright := ht.congr (fun b ↦ f s' b) fun b b' hb ↦ hf s' s' b b' (.refl s') hb
  exact hleft.trans hright

theorem Reduces.quant (polarity : Polarity) (rank : Nat)
    {domain domain' codomain codomain' : Nameless} (hdomain : Reduces domain domain')
    (hcodomain : Reduces codomain codomain') :
    Reduces (quant polarity rank domain codomain) (quant polarity rank domain' codomain') :=
  hdomain.congr₂ _ (fun _ _ _ _ h h' ↦ .quant polarity rank h h') hcodomain

theorem Reduces.declare (rank : Nat) (name : String) {type type' rest rest' : Nameless}
    (htype : Reduces type type') (hrest : Reduces rest rest') :
    Reduces (declare rank type name rest) (declare rank type' name rest') :=
  Reduces.congr₂ (fun type rest ↦ Nameless.declare rank type name rest)
    (fun _ _ _ _ h h' ↦ .declare rank name h h') htype hrest

theorem Reduces.signature {members members' : Nameless} (h : Reduces members members') :
    Reduces (signature members) (signature members') :=
  h.congr _ fun _ _ h ↦ .signature h

theorem Reduces.lam {body body' : Nameless} (h : Reduces body body') :
    Reduces (lam body) (lam body') :=
  h.congr _ fun _ _ h ↦ .lam h

theorem Reduces.record {members members' : Nameless} (h : Reduces members members') :
    Reduces (record members) (record members') :=
  h.congr _ fun _ _ h ↦ .record h

theorem Reduces.cons {head head' tail tail' : Nameless} (hhead : Reduces head head')
    (htail : Reduces tail tail') : Reduces (cons head tail) (cons head' tail') :=
  hhead.congr₂ _ (fun _ _ _ _ h h' ↦ .cons h h') htail

theorem Reduces.app (rank : Nat) {type type' operator operator' operand operand' : Nameless}
    (htype : Reduces type type') (hoperator : Reduces operator operator')
    (hoperand : Reduces operand operand') :
    Reduces (app rank type operator operand) (app rank type' operator' operand') := by
  have hparts := hoperator.congr₂ (fun a b ↦ Nameless.app rank type a b)
    (fun _ _ _ _ h h' ↦ .app rank (.refl type) h h') hoperand
  exact hparts.trans (htype.congr (fun a ↦ Nameless.app rank a operator' operand')
    fun _ _ h ↦ .app rank h (.refl _) (.refl _))

theorem Reduces.proj (rank index : Nat) {type type' operator operator' : Nameless}
    (htype : Reduces type type') (hoperator : Reduces operator operator') :
    Reduces (proj rank type operator index) (proj rank type' operator' index) :=
  Reduces.congr₂ (fun a b ↦ Nameless.proj rank a b index)
    (fun _ _ _ _ h h' ↦ .proj rank index h h') htype hoperator

/-- Convertible terms have a common reduct. -/
theorem Conv.join {s t : Nameless} (h : Conv s t) : Join Reduces s t := by
  induction h with
  | beta rank type body operand =>
    exact ⟨_, .single (.beta rank type (.refl body) (.refl operand)), .refl⟩
  | select rank type h => exact ⟨_, .single (.select rank type (.refl _) h), .refl⟩
  | refl t => exact ⟨t, .refl, .refl⟩
  | symm _ ih =>
    obtain ⟨u, hs, ht⟩ := ih
    exact ⟨u, ht, hs⟩
  | trans _ _ ihst ihtu =>
    obtain ⟨v, hsv, htv⟩ := ihst
    obtain ⟨w, htw, huw⟩ := ihtu
    obtain ⟨x, hvx, hwx⟩ := htv.confluent htw
    exact ⟨x, hsv.trans hvx, huw.trans hwx⟩
  | quant polarity rank _ _ ihdomain ihcodomain =>
    obtain ⟨_, hd, hd'⟩ := ihdomain
    obtain ⟨_, hc, hc'⟩ := ihcodomain
    exact ⟨_, hd.quant polarity rank hc, hd'.quant polarity rank hc'⟩
  | signature _ ih =>
    obtain ⟨_, h, h'⟩ := ih
    exact ⟨_, h.signature, h'.signature⟩
  | declare rank name _ _ ihtype ihrest =>
    obtain ⟨_, ht, ht'⟩ := ihtype
    obtain ⟨_, hr, hr'⟩ := ihrest
    exact ⟨_, ht.declare rank name hr, ht'.declare rank name hr'⟩
  | lam _ ih =>
    obtain ⟨_, h, h'⟩ := ih
    exact ⟨_, h.lam, h'.lam⟩
  | record _ ih =>
    obtain ⟨_, h, h'⟩ := ih
    exact ⟨_, h.record, h'.record⟩
  | cons _ _ ihhead ihtail =>
    obtain ⟨_, hh, hh'⟩ := ihhead
    obtain ⟨_, ht, ht'⟩ := ihtail
    exact ⟨_, hh.cons ht, hh'.cons ht'⟩
  | app rank _ _ _ ihtype ihoperator ihoperand =>
    obtain ⟨_, ht, ht'⟩ := ihtype
    obtain ⟨_, ho, ho'⟩ := ihoperator
    obtain ⟨_, ha, ha'⟩ := ihoperand
    exact ⟨_, ht.app rank ho ha, ht'.app rank ho' ha'⟩
  | proj rank index _ _ ihtype ihoperator =>
    obtain ⟨_, ht, ht'⟩ := ihtype
    obtain ⟨_, ho, ho'⟩ := ihoperator
    exact ⟨_, ht.proj rank index ho, ht'.proj rank index ho'⟩

/-- Nothing in the term can be contracted. -/
def Irreducible (t : Nameless) : Prop := ∀ u, Par t u → u = t

theorem Irreducible.eq_of_reduces {t u : Nameless} (ht : Irreducible t) (h : Reduces t u) :
    u = t := by
  induction h with
  | refl => rfl
  | tail _ hstep ih =>
    subst ih
    exact ht _ hstep

/-- Terms that reduce to irreducible terms are convertible exactly if these are the same. -/
theorem conv_iff_of_irreducible {s t m n : Nameless} (hs : Reduces s m) (ht : Reduces t n)
    (hm : Irreducible m) (hn : Irreducible n) : Conv s t ↔ m = n := by
  constructor
  · intro h
    obtain ⟨u, hmu, hnu⟩ := ((hs.conv.symm.trans h).trans ht.conv).join
    rw [← hm.eq_of_reduces hmu, ← hn.eq_of_reduces hnu]
  · rintro rfl
    exact hs.conv.trans ht.conv.symm

end RankedTT.Nameless
