import RankedTT.Prelude
import RankedTT.Proofs.Confluence
import RankedTT.Proofs.NamelessForm

/-!
A type system for terms up to the names of binders. Types are compared by convertibility, so no name
can be captured: what this system accepts is what the typing rules of surface terms mean to accept.
A lambda that is applied may be typed through its reduct, as a let binding is. Universes are not
cumulative: a quantifier is a type of the rank of its codomain and has to record the rank of its
domain, and a record type has the rank of its highest member. The types recorded on operators have
to be typed, but nothing else is asked of them.

Reduction preserves types, and so it preserves ranks. As types are arbitrary terms, this needs that
quantifiers, record types and universes are convertible only if their parts are, which is a
consequence of confluence.
-/

set_option autoImplicit false
set_option relaxedAutoImplicit false

namespace RankedTT.Nameless

open Relation

/-! ### Shapes -/

/-- The outermost construct of a term. -/
inductive Shape where
  | univ
  | quant
  | signature
  | declare
  | lam
  | record
  | cons
  | nil
  | var
  | const

/-- The construct that all reducts of a term begin with; applications and projections may reduce to
anything. -/
def shape? : Nameless → Option Shape
  | univ _ => some .univ
  | quant .. => some .quant
  | signature _ => some .signature
  | declare .. => some .declare
  | lam _ => some .lam
  | record _ => some .record
  | cons .. => some .cons
  | nil => some .nil
  | app .. => none
  | proj .. => none
  | var _ => some .var
  | const _ => some .const

theorem Par.shape? {s t : Nameless} (h : Par s t) {k : Shape} (hk : s.shape? = some k) :
    t.shape? = some k := by
  cases h <;> simp_all [Nameless.shape?]

theorem Reduces.shape? {s t : Nameless} (h : Reduces s t) {k : Shape} (hk : s.shape? = some k) :
    t.shape? = some k := by
  induction h with
  | refl => exact hk
  | tail _ hstep ih => exact hstep.shape? ih

/-- Convertible terms begin with the same construct. -/
theorem Conv.shape_eq {s t : Nameless} (h : Conv s t) {k k' : Shape} (hs : s.shape? = some k)
    (ht : t.shape? = some k') : k = k' := by
  obtain ⟨u, hsu, htu⟩ := h.join
  have hk := hsu.shape? hs
  rw [htu.shape? ht] at hk
  exact (Option.some.inj hk).symm

theorem Reduces.quant_inv {polarity : Polarity} {rank : Nat} {domain codomain u : Nameless}
    (h : Reduces (.quant polarity rank domain codomain) u) :
    ∃ domain' codomain', u = .quant polarity rank domain' codomain' ∧ Reduces domain domain' ∧
      Reduces codomain codomain' := by
  induction h with
  | refl => exact ⟨_, _, rfl, .refl, .refl⟩
  | tail _ hstep ih =>
    obtain ⟨_, _, rfl, hdomain, hcodomain⟩ := ih
    cases hstep with
    | quant _ _ hd hc => exact ⟨_, _, rfl, hdomain.tail hd, hcodomain.tail hc⟩

theorem Reduces.signature_inv {members u : Nameless} (h : Reduces (.signature members) u) :
    ∃ members', u = .signature members' ∧ Reduces members members' := by
  induction h with
  | refl => exact ⟨_, rfl, .refl⟩
  | tail _ hstep ih =>
    obtain ⟨_, rfl, hmembers⟩ := ih
    cases hstep with
    | signature hm => exact ⟨_, rfl, hmembers.tail hm⟩

theorem Reduces.declare_inv {rank : Nat} {type rest u : Nameless} {name : String}
    (h : Reduces (.declare rank type name rest) u) :
    ∃ type' rest', u = .declare rank type' name rest' ∧ Reduces type type' ∧
      Reduces rest rest' := by
  induction h with
  | refl => exact ⟨_, _, rfl, .refl, .refl⟩
  | tail _ hstep ih =>
    obtain ⟨_, _, rfl, htype, hrest⟩ := ih
    cases hstep with
    | declare _ _ ht hr => exact ⟨_, _, rfl, htype.tail ht, hrest.tail hr⟩

theorem Conv.of_join {s t u : Nameless} (hs : Reduces s u) (ht : Reduces t u) : Conv s t :=
  hs.conv.trans ht.conv.symm

theorem Reduces.univ_inv {rank : Nat} {u : Nameless} (h : Reduces (.univ rank) u) :
    u = .univ rank := by
  induction h with
  | refl => rfl
  | tail _ hstep ih =>
    subst ih
    cases hstep
    rfl

/-- Convertible universes have the same rank. -/
theorem Conv.univ_inj {m n : Nat} (h : Conv (Nameless.univ m) (Nameless.univ n)) : m = n := by
  obtain ⟨u, hm, hn⟩ := h.join
  exact Nameless.univ.inj (hm.univ_inv.symm.trans hn.univ_inv)

theorem Conv.quant_inj {polarity polarity' : Polarity} {rank rank' : Nat}
    {domain domain' codomain codomain' : Nameless}
    (h : Conv (Nameless.quant polarity rank domain codomain)
      (Nameless.quant polarity' rank' domain' codomain')) :
    Conv domain domain' ∧ Conv codomain codomain' := by
  obtain ⟨u, hl, hr⟩ := h.join
  obtain ⟨_, _, rfl, hd, hc⟩ := hl.quant_inv
  obtain ⟨_, _, heq, hd', hc'⟩ := hr.quant_inv
  cases heq
  exact ⟨.of_join hd hd', .of_join hc hc'⟩

theorem Conv.signature_inj {members members' : Nameless}
    (h : Conv (Nameless.signature members) (Nameless.signature members')) :
    Conv members members' := by
  obtain ⟨u, hl, hr⟩ := h.join
  obtain ⟨_, rfl, hm⟩ := hl.signature_inv
  obtain ⟨_, heq, hm'⟩ := hr.signature_inv
  cases heq
  exact .of_join hm hm'

theorem Conv.declare_inj {rank rank' : Nat} {type type' rest rest' : Nameless}
    {name name' : String}
    (h : Conv (Nameless.declare rank type name rest) (Nameless.declare rank' type' name' rest')) :
    Conv type type' ∧ Conv rest rest' := by
  obtain ⟨u, hl, hr⟩ := h.join
  obtain ⟨_, _, rfl, ht, hr₁⟩ := hl.declare_inv
  obtain ⟨_, _, heq, ht', hr₂⟩ := hr.declare_inv
  cases heq
  exact ⟨.of_join ht ht', .of_join hr₁ hr₂⟩

theorem Reduces.subst {s t : Nameless} (h : Reduces s t) (τ : Ref → Nameless) :
    Reduces (s.subst τ) (t.subst τ) :=
  h.congr _ fun _ _ hstep ↦ hstep.subst fun v ↦ .refl (τ v)

theorem Reduces.rename {s t : Nameless} (h : Reduces s t) (r : Nat → Nat) :
    Reduces (s.rename r) (t.rename r) := by
  rw [rename_eq_subst, rename_eq_subst]
  exact h.subst _

theorem Reduces.lift {τ υ : Ref → Nameless} (h : ∀ v, Reduces (τ v) (υ v)) (v : Ref) :
    Reduces (Nameless.lift τ v) (Nameless.lift υ v) := by
  rcases v with ⟨⟨⟩ | i⟩ | x
  · exact .refl
  · exact (h (.bound i)).rename _
  · exact (h (.free x)).rename _

/-- Reducts in place of the variables. -/
theorem Reduces.subst_right (t : Nameless) {τ υ : Ref → Nameless} (h : ∀ v, Reduces (τ v) (υ v)) :
    Reduces (t.subst τ) (t.subst υ) := by
  induction t generalizing τ υ with
  | univ | const | nil => exact .refl
  | quant polarity rank _ _ hdomain hcodomain =>
    exact .quant polarity rank (hdomain h) (hcodomain (Reduces.lift h))
  | signature _ ih => exact .signature (ih h)
  | declare rank _ name _ htype hrest =>
    exact .declare rank name (htype h) (hrest (Reduces.lift h))
  | lam _ ih => exact .lam (ih (Reduces.lift h))
  | record _ ih => exact .record (ih h)
  | cons _ _ hhead htail => exact .cons (hhead h) (htail h)
  | app rank _ _ _ htype hoperator hoperand => exact .app rank (htype h) (hoperator h) (hoperand h)
  | proj rank _ _ index htype hoperator => exact .proj rank index (htype h) (hoperator h)
  | var ref => exact h ref

theorem Conv.subst {s t : Nameless} (h : Conv s t) (τ : Ref → Nameless) :
    Conv (s.subst τ) (t.subst τ) := by
  obtain ⟨u, hs, ht⟩ := h.join
  exact .of_join (hs.subst τ) (ht.subst τ)

theorem Conv.rename {s t : Nameless} (h : Conv s t) (r : Nat → Nat) :
    Conv (s.rename r) (t.rename r) := by
  rw [rename_eq_subst, rename_eq_subst]
  exact h.subst _

/-- Convertible terms in place of the variables. -/
theorem Conv.subst_right (t : Nameless) {τ υ : Ref → Nameless} (h : ∀ v, Conv (τ v) (υ v)) :
    Conv (t.subst τ) (t.subst υ) := by
  obtain ⟨u, hu⟩ := Classical.skolem.mp fun v ↦ (h v).join
  exact .of_join (.subst_right t fun v ↦ (hu v).1) (.subst_right t fun v ↦ (hu v).2)

theorem Conv.inst {body body' a a' : Nameless} (hbody : Conv body body') (ha : Conv a a') :
    Conv (body.inst a) (body'.inst a') := by
  refine (hbody.subst _).trans (Conv.subst_right body' fun v ↦ ?_)
  rcases v with ⟨⟨⟩ | i⟩ | x
  · exact ha
  · exact .refl _
  · exact .refl _

/-! ### The judgement -/

/-- The types of the variables that are bound, the innermost first. -/
abbrev Assignment := Nat → Option Nameless

def Assignment.empty : Assignment := fun _ ↦ none

/-- The assignment below a binder. -/
def Assignment.extend (Γ : Assignment) (type : Nameless) : Assignment
  | 0 => some type.shift
  | i + 1 => (Γ i).map shift

/-- The free names: types whose values only the host knows. -/
def baseTypes : List String := ["int", "string"]

/-- The type of a constant, absent if the constant is none of the prelude. -/
def constantType? : ValueKey → Option Nameless
  | .int _ => some (var (.free "int"))
  | .str _ => some (var (.free "string"))
  | .host (.binary op) => some ((Prelude.operation op).type.nameless [])
  | _ => none

/-- `Declares select types i T`: of the chained declarations `types`, the one at the position `i`
gives the type `T`, where `select` gives the members before it. -/
inductive Declares : (Nat → Nameless) → Nameless → Nat → Nameless → Prop
  | here {select : Nat → Nameless} {types T rest : Nameless} {rank : Nat} {name : String}
      (h : Conv types (declare rank T name rest)) : Declares select types 0 T
  | there {select : Nat → Nameless} {types type rest T : Nameless} {rank i : Nat} {name : String}
      (h : Conv types (declare rank type name rest))
      (hrest : Declares (fun j ↦ select (j + 1)) (rest.inst (select 0)) i T) :
      Declares select types (i + 1) T

/-- `HasType Γ t T`: the term `t` has the type `T`. The chained members of a record have their
chained declarations for a type, and chained declarations have a universe. -/
inductive HasType : Assignment → Nameless → Nameless → Prop
  | univ {Γ : Assignment} (m : Nat) : HasType Γ (univ m) (univ (m + 1))
  | base {Γ : Assignment} {x : String} (hx : x ∈ baseTypes) :
      HasType Γ (var (.free x)) (univ 0)
  | var {Γ : Assignment} {i : Nat} {T : Nameless} (h : Γ i = some T) :
      HasType Γ (var (.bound i)) T
  | const {Γ : Assignment} {key : ValueKey} {T : Nameless} (h : constantType? key = some T) :
      HasType Γ (const key) T
  | quant {Γ : Assignment} {domain codomain : Nameless} {rank n : Nat} (polarity : Polarity)
      (hdomain : HasType Γ domain (univ rank))
      (hcodomain : HasType (Γ.extend domain) codomain (univ n)) :
      HasType Γ (quant polarity rank domain codomain) (univ n)
  | signature {Γ : Assignment} {members : Nameless} {n : Nat}
      (h : HasType Γ members (univ n)) : HasType Γ (signature members) (univ n)
  | noDeclarations {Γ : Assignment} : HasType Γ nil (univ 0)
  | declare {Γ : Assignment} {type rest : Nameless} {rank n : Nat} (name : String)
      (htype : HasType Γ type (univ rank)) (hrest : HasType (Γ.extend type) rest (univ n)) :
      HasType Γ (declare rank type name rest) (univ (max rank n))
  | lam {Γ : Assignment} {domain body codomain : Nameless} (rank : Nat)
      (hbody : HasType (Γ.extend domain) body codomain) :
      HasType Γ (lam body) (quant .universal rank domain codomain)
  | record {Γ : Assignment} {members types : Nameless} (h : HasType Γ members types) :
      HasType Γ (record members) (signature types)
  | noMembers {Γ : Assignment} : HasType Γ nil nil
  | cons {Γ : Assignment} {head tail type rest : Nameless} (rank : Nat) (name : String)
      (hhead : HasType Γ head type) (htail : HasType Γ tail (rest.inst head)) :
      HasType Γ (cons head tail) (declare rank type name rest)
  | app {Γ : Assignment} {type K operator operand domain codomain : Nameless} {rank : Nat}
      (n : Nat) (htype : HasType Γ type K)
      (hoperator : HasType Γ operator (quant .universal rank domain codomain))
      (hoperand : HasType Γ operand domain) :
      HasType Γ (app n type operator operand) (codomain.inst operand)
  /-- A let binding: while its body is typed, the name stands for the definition. -/
  | letIn {Γ : Assignment} {type K body operand D T : Nameless} (n : Nat)
      (htype : HasType Γ type K) (hoperand : HasType Γ operand D)
      (hbody : HasType Γ (body.inst operand) T) : HasType Γ (app n type (lam body) operand) T
  | proj {Γ : Assignment} {type K operator types T : Nameless} {index : Nat} (n : Nat)
      (htype : HasType Γ type K) (hoperator : HasType Γ operator (signature types))
      (hmember : Declares (proj n type operator) types index T) :
      HasType Γ (proj n type operator index) T
  | conv {Γ : Assignment} {t S T : Nameless} (h : HasType Γ t S) (hconv : Conv S T) :
      HasType Γ t T

/-- The term is a type. -/
def IsType (Γ : Assignment) (T : Nameless) : Prop := ∃ n, HasType Γ T (univ n)

/-! ### Substitution -/

/-- The operations of the prelude are functions of two operands of one type. -/
theorem operationType_eq (op : BinaryOp) :
    (Prelude.operation op).type.nameless [] =
      quant .universal 0 (var (.free (Prelude.operandType op)))
        (quant .universal 0 (var (.free (Prelude.operandType op)))
          (var (.free (Prelude.operandType op)))) := by
  cases op <;> rfl

/-- Free names stand for themselves. -/
def KeepsFree (τ : Ref → Nameless) : Prop := ∀ x, τ (.free x) = var (.free x)

theorem KeepsFree.lift {τ : Ref → Nameless} (h : KeepsFree τ) : KeepsFree (lift τ) := by
  intro x
  rw [Nameless.lift, h x]
  rfl

theorem keepsFree_instantiation (a : Nameless) : KeepsFree (instantiation a) := fun _ ↦ rfl

theorem constantType?_subst {key : ValueKey} {T : Nameless} (h : constantType? key = some T)
    {τ : Ref → Nameless} (hτ : KeepsFree τ) : T.subst τ = T := by
  unfold constantType? at h
  split at h
  · cases h
    exact hτ _
  · cases h
    exact hτ _
  · cases h
    simp only [operationType_eq, subst, hτ _, hτ.lift _, hτ.lift.lift _]
  · simp at h

theorem constantType?_rename {key : ValueKey} {T : Nameless} (h : constantType? key = some T)
    (r : Nat → Nat) : T.rename r = T := by
  rw [rename_eq_subst]
  exact constantType?_subst h fun _ ↦ rfl

theorem Declares.subst {select : Nat → Nameless} {types T : Nameless} {i : Nat}
    (h : Declares select types i T) (τ : Ref → Nameless) :
    Declares (fun j ↦ (select j).subst τ) (types.subst τ) i (T.subst τ) := by
  induction h with
  | here h => exact .here (h.subst τ)
  | there h _ ih =>
    refine .there (h.subst τ) ?_
    rw [← subst_inst]
    exact ih

theorem shift_rename (t : Nameless) (r : Nat → Nat) :
    t.shift.rename (liftIndex r) = (t.rename r).shift := by
  simp only [shift, rename_rename]
  rfl

/-- Variables may move to places where they have the same types. -/
def Renames (r : Nat → Nat) (Γ Δ : Assignment) : Prop :=
  ∀ i T, Γ i = some T → Δ (r i) = some (T.rename r)

theorem Renames.extend {r : Nat → Nat} {Γ Δ : Assignment} (h : Renames r Γ Δ) (A : Nameless) :
    Renames (liftIndex r) (Γ.extend A) (Δ.extend (A.rename r)) := by
  intro i T hT
  cases i with
  | zero =>
    injection hT with hT
    rw [← hT, shift_rename]
    rfl
  | succ i =>
    obtain ⟨U, hU, rfl⟩ := Option.map_eq_some_iff.mp hT
    rw [shift_rename]
    change (Δ (r i)).map shift = _
    rw [h i U hU]
    rfl

theorem HasType.rename {Γ : Assignment} {t T : Nameless} (h : HasType Γ t T) {Δ : Assignment}
    {r : Nat → Nat} (hr : Renames r Γ Δ) : HasType Δ (t.rename r) (T.rename r) := by
  induction h generalizing Δ r with
  | univ m => exact .univ m
  | base hx => exact .base hx
  | var h => exact .var (hr _ _ h)
  | const h =>
    rw [constantType?_rename h]
    exact .const h
  | quant polarity _ _ hdomain hcodomain =>
    exact .quant polarity (hdomain hr) (hcodomain (hr.extend _))
  | signature _ ih => exact .signature (ih hr)
  | noDeclarations => exact .noDeclarations
  | declare name _ _ htype hrest => exact .declare name (htype hr) (hrest (hr.extend _))
  | lam rank _ hbody => exact .lam rank (hbody (hr.extend _))
  | record _ ih => exact .record (ih hr)
  | noMembers => exact .noMembers
  | cons rank name _ _ hhead htail =>
    refine .cons rank name (hhead hr) ?_
    rw [← rename_inst]
    exact htail hr
  | app n _ _ _ htype hoperator hoperand =>
    rw [rename_inst]
    exact .app n (htype hr) (hoperator hr) (hoperand hr)
  | letIn n _ _ _ htype hoperand hbody =>
    refine .letIn n (htype hr) (hoperand hr) ?_
    rw [← rename_inst]
    exact hbody hr
  | proj n _ _ hmember htype hoperator =>
    refine .proj n (htype hr) (hoperator hr) ?_
    have h := hmember.subst fun v ↦ Nameless.var (v.rename r)
    simp only [← rename_eq_subst] at h
    exact h
  | conv _ hconv ih => exact .conv (ih hr) (hconv.rename r)

theorem HasType.shift {Γ : Assignment} {t T : Nameless} (h : HasType Γ t T) (A : Nameless) :
    HasType (Γ.extend A) t.shift T.shift := by
  refine h.rename fun i T hT ↦ ?_
  change (Γ i).map Nameless.shift = _
  rw [hT]
  rfl

/-- The variables may be replaced by terms of their types. -/
structure Replaces (τ : Ref → Nameless) (Γ Δ : Assignment) : Prop where
  free : KeepsFree τ
  typed : ∀ i T, Γ i = some T → HasType Δ (τ (.bound i)) (T.subst τ)

theorem Replaces.extend {τ : Ref → Nameless} {Γ Δ : Assignment} (h : Replaces τ Γ Δ)
    (A : Nameless) : Replaces (lift τ) (Γ.extend A) (Δ.extend (A.subst τ)) := by
  refine ⟨h.free.lift, fun i T hT ↦ ?_⟩
  cases i with
  | zero =>
    injection hT with hT
    rw [← hT, subst_shift]
    exact .var rfl
  | succ i =>
    obtain ⟨U, hU, rfl⟩ := Option.map_eq_some_iff.mp hT
    rw [subst_shift]
    exact (h.typed i U hU).shift _

theorem HasType.subst {Γ : Assignment} {t T : Nameless} (h : HasType Γ t T) {Δ : Assignment}
    {τ : Ref → Nameless} (hτ : Replaces τ Γ Δ) : HasType Δ (t.subst τ) (T.subst τ) := by
  induction h generalizing Δ τ with
  | univ m => exact .univ m
  | base hx =>
    change HasType Δ (τ (.free _)) _
    rw [hτ.free _]
    exact .base hx
  | var h => exact hτ.typed _ _ h
  | const h =>
    rw [constantType?_subst h hτ.free]
    exact .const h
  | quant polarity _ _ hdomain hcodomain =>
    exact .quant polarity (hdomain hτ) (hcodomain (hτ.extend _))
  | signature _ ih => exact .signature (ih hτ)
  | noDeclarations => exact .noDeclarations
  | declare name _ _ htype hrest => exact .declare name (htype hτ) (hrest (hτ.extend _))
  | lam rank _ hbody => exact .lam rank (hbody (hτ.extend _))
  | record _ ih => exact .record (ih hτ)
  | noMembers => exact .noMembers
  | cons rank name _ _ hhead htail =>
    refine .cons rank name (hhead hτ) ?_
    rw [← subst_inst]
    exact htail hτ
  | app n _ _ _ htype hoperator hoperand =>
    rw [subst_inst]
    exact .app n (htype hτ) (hoperator hτ) (hoperand hτ)
  | letIn n _ _ _ htype hoperand hbody =>
    refine .letIn n (htype hτ) (hoperand hτ) ?_
    rw [← subst_inst]
    exact hbody hτ
  | proj n _ _ hmember htype hoperator =>
    exact .proj n (htype hτ) (hoperator hτ) (hmember.subst τ)
  | conv _ hconv ih => exact .conv (ih hτ) (hconv.subst τ)

theorem HasType.inst {Γ : Assignment} {body a A T : Nameless} (h : HasType (Γ.extend A) body T)
    (ha : HasType Γ a A) : HasType Γ (body.inst a) (T.inst a) := by
  refine h.subst ⟨keepsFree_instantiation a, fun i U hU ↦ ?_⟩
  cases i with
  | zero =>
    injection hU with hU
    rw [← hU]
    change HasType Γ a (A.shift.inst a)
    rwa [inst_shift]
  | succ i =>
    obtain ⟨V, hV, rfl⟩ := Option.map_eq_some_iff.mp hU
    change HasType Γ (Nameless.var (.bound i)) (V.shift.inst a)
    rw [inst_shift]
    exact .var hV

/-- The type of a binder may be replaced by a convertible one. -/
theorem HasType.convert_binder {Γ : Assignment} {body A A' T : Nameless}
    (h : HasType (Γ.extend A) body T) (hA : Conv A A') : HasType (Γ.extend A') body T := by
  have hbody := h.subst (Δ := Γ.extend A') (τ := Nameless.var) ⟨fun _ ↦ rfl, fun i U hU ↦ ?_⟩
  · rwa [subst_var, subst_var] at hbody
  · rw [subst_var]
    cases i with
    | zero =>
      injection hU with hU
      rw [← hU]
      exact .conv (.var rfl) (hA.symm.rename _)
    | succ i => exact .var hU

/-! ### Inversion -/

section Inversion

variable {Γ : Assignment} {T : Nameless}

theorem HasType.univ_inv {m : Nat} (h : HasType Γ (.univ m) T) : Conv (.univ (m + 1)) T := by
  generalize ht : Nameless.univ m = t at h
  induction h with
  | univ _ =>
    cases ht
    exact .refl _
  | conv _ hconv ih => exact (ih ht).trans hconv
  | _ => cases ht

theorem HasType.quant_inv {polarity : Polarity} {rank : Nat} {domain codomain : Nameless}
    (h : HasType Γ (.quant polarity rank domain codomain) T) :
    ∃ n, Conv (.univ n) T ∧ HasType Γ domain (.univ rank) ∧
      HasType (Γ.extend domain) codomain (.univ n) := by
  generalize ht : Nameless.quant polarity rank domain codomain = t at h
  induction h with
  | quant _ hdomain hcodomain _ _ =>
    cases ht
    exact ⟨_, .refl _, hdomain, hcodomain⟩
  | conv _ hconv ih =>
    obtain ⟨n, hT, hparts⟩ := ih ht
    exact ⟨n, hT.trans hconv, hparts⟩
  | _ => cases ht

theorem HasType.signature_inv {members : Nameless} (h : HasType Γ (.signature members) T) :
    ∃ n, Conv (.univ n) T ∧ HasType Γ members (.univ n) := by
  generalize ht : Nameless.signature members = t at h
  induction h with
  | signature hmembers _ =>
    cases ht
    exact ⟨_, .refl _, hmembers⟩
  | conv _ hconv ih =>
    obtain ⟨n, hT, hmembers⟩ := ih ht
    exact ⟨n, hT.trans hconv, hmembers⟩
  | _ => cases ht

theorem HasType.declare_inv {rank : Nat} {type rest : Nameless} {name : String}
    (h : HasType Γ (.declare rank type name rest) T) :
    ∃ n, Conv (.univ (max rank n)) T ∧ HasType Γ type (.univ rank) ∧
      HasType (Γ.extend type) rest (.univ n) := by
  generalize ht : Nameless.declare rank type name rest = t at h
  induction h with
  | declare _ htype hrest _ _ =>
    cases ht
    exact ⟨_, .refl _, htype, hrest⟩
  | conv _ hconv ih =>
    obtain ⟨n, hT, hparts⟩ := ih ht
    exact ⟨n, hT.trans hconv, hparts⟩
  | _ => cases ht

theorem HasType.lam_inv {body : Nameless} (h : HasType Γ (.lam body) T) :
    ∃ rank domain codomain, Conv (.quant .universal rank domain codomain) T ∧
      HasType (Γ.extend domain) body codomain := by
  generalize ht : Nameless.lam body = t at h
  induction h with
  | lam rank hbody _ =>
    cases ht
    exact ⟨rank, _, _, .refl _, hbody⟩
  | conv _ hconv ih =>
    obtain ⟨rank, domain, codomain, hT, hbody⟩ := ih ht
    exact ⟨rank, domain, codomain, hT.trans hconv, hbody⟩
  | _ => cases ht

theorem HasType.record_inv {members : Nameless} (h : HasType Γ (.record members) T) :
    ∃ types, Conv (.signature types) T ∧ HasType Γ members types := by
  generalize ht : Nameless.record members = t at h
  induction h with
  | record hmembers _ =>
    cases ht
    exact ⟨_, .refl _, hmembers⟩
  | conv _ hconv ih =>
    obtain ⟨types, hT, hmembers⟩ := ih ht
    exact ⟨types, hT.trans hconv, hmembers⟩
  | _ => cases ht

theorem HasType.cons_inv {head tail : Nameless} (h : HasType Γ (.cons head tail) T) :
    ∃ rank type name rest, Conv (.declare rank type name rest) T ∧ HasType Γ head type ∧
      HasType Γ tail (rest.inst head) := by
  generalize ht : Nameless.cons head tail = t at h
  induction h with
  | cons rank name hhead htail _ _ =>
    cases ht
    exact ⟨rank, _, name, _, .refl _, hhead, htail⟩
  | conv _ hconv ih =>
    obtain ⟨rank, type, name, rest, hT, hparts⟩ := ih ht
    exact ⟨rank, type, name, rest, hT.trans hconv, hparts⟩
  | _ => cases ht

theorem HasType.const_inv {key : ValueKey} (h : HasType Γ (.const key) T) :
    ∃ S, constantType? key = some S ∧ Conv S T := by
  generalize ht : Nameless.const key = t at h
  induction h with
  | const hkey =>
    cases ht
    exact ⟨_, hkey, .refl _⟩
  | conv _ hconv ih =>
    obtain ⟨S, hkey, hT⟩ := ih ht
    exact ⟨S, hkey, hT.trans hconv⟩
  | _ => cases ht

/-- An operator that is no lambda has a function type. -/
theorem HasType.app_inv {n : Nat} {type operator operand : Nameless}
    (h : HasType Γ (.app n type operator operand) T) (hoperator : operator.shape? ≠ some .lam) :
    ∃ rank domain codomain, HasType Γ operator (.quant .universal rank domain codomain) ∧
      Conv (codomain.inst operand) T := by
  generalize ht : Nameless.app n type operator operand = t at h
  induction h with
  | app _ _ hoperator _ _ _ _ =>
    cases ht
    exact ⟨_, _, _, hoperator, .refl _⟩
  | letIn _ _ _ _ _ _ _ =>
    cases ht
    exact absurd rfl hoperator
  | conv _ hconv ih =>
    obtain ⟨rank, domain, codomain, hfunction, hT⟩ := ih ht
    exact ⟨rank, domain, codomain, hfunction, hT.trans hconv⟩
  | _ => cases ht

end Inversion

/-! ### Subject reduction -/

theorem Declares.convert {select select' : Nat → Nameless} {types types' T : Nameless} {i : Nat}
    (h : Declares select types i T) (hselect : ∀ j, Conv (select j) (select' j))
    (htypes : Conv types types') : Declares select' types' i T := by
  induction h generalizing select' types' with
  | here h => exact .here (htypes.symm.trans h)
  | there h _ ih =>
    exact .there (htypes.symm.trans h)
      (ih (fun j ↦ hselect (j + 1)) ((Conv.refl _).inst (hselect 0)))

/-- The members of a record have the types that the declarations give. -/
theorem HasType.nth {Γ : Assignment} {select : Nat → Nameless} {members types m T : Nameless}
    {i : Nat} (hdeclares : Declares select types i T) (h : HasType Γ members types)
    (hselect : ∀ j a, members.nth j = some a → Conv (select j) a)
    (hm : members.nth i = some m) : HasType Γ m T := by
  induction hdeclares generalizing members with
  | here htypes =>
    cases members with
    | cons head tail =>
      obtain ⟨_, _, _, _, hT, hhead, -⟩ := h.cons_inv
      obtain rfl : head = m := by simpa [Nameless.nth] using hm
      exact hhead.conv (hT.trans htypes).declare_inj.1
    | _ => simp [Nameless.nth] at hm
  | there htypes _ ih =>
    cases members with
    | cons head tail =>
      obtain ⟨_, _, _, _, hT, -, htail⟩ := h.cons_inv
      have hrest := (hT.trans htypes).declare_inj.2.inst (hselect 0 head rfl).symm
      exact ih (htail.conv hrest) (fun j a ha ↦ hselect (j + 1) a ha) hm
    | _ => simp [Nameless.nth] at hm

/-- Types are preserved by reduction. -/
theorem HasType.par {Γ : Assignment} {t t' T : Nameless} (h : HasType Γ t T) (hstep : Par t t') :
    HasType Γ t' T := by
  induction h generalizing t' with
  | univ m =>
    cases hstep
    exact .univ m
  | base hx =>
    cases hstep
    exact .base hx
  | var h =>
    cases hstep
    exact .var h
  | const h =>
    cases hstep
    exact .const h
  | quant polarity _ _ ihdomain ihcodomain =>
    cases hstep with
    | quant _ _ hdomain hcodomain =>
      exact .quant polarity (ihdomain hdomain)
        ((ihcodomain hcodomain).convert_binder hdomain.conv)
  | signature _ ih =>
    cases hstep with
    | signature hmembers => exact .signature (ih hmembers)
  | noDeclarations =>
    cases hstep
    exact .noDeclarations
  | declare name _ _ ihtype ihrest =>
    cases hstep with
    | declare _ _ htype hrest =>
      exact .declare name (ihtype htype) ((ihrest hrest).convert_binder htype.conv)
  | lam rank _ ih =>
    cases hstep with
    | lam hbody => exact .lam rank (ih hbody)
  | record _ ih =>
    cases hstep with
    | record hmembers => exact .record (ih hmembers)
  | noMembers =>
    cases hstep
    exact .noMembers
  | cons rank name _ _ ihhead ihtail =>
    cases hstep with
    | cons hhead htail =>
      exact .cons rank name (ihhead hhead)
        ((ihtail htail).conv ((Conv.refl _).inst hhead.conv))
  | app n _ _ _ ihtype ihoperator ihoperand =>
    cases hstep with
    | app _ htype hoperator hoperand =>
      exact .conv (.app n (ihtype htype) (ihoperator hoperator) (ihoperand hoperand))
        ((Conv.refl _).inst hoperand.conv.symm)
    | beta _ _ hbody hoperand =>
      obtain ⟨_, _, _, hconv, hlam⟩ := (ihoperator (.lam hbody)).lam_inv
      obtain ⟨hdomain, hcodomain⟩ := hconv.quant_inj
      have hresult := hlam.inst ((ihoperand hoperand).conv hdomain.symm)
      exact hresult.conv (hcodomain.inst hoperand.conv.symm)
  | letIn n _ _ _ ihtype ihoperand ihbody =>
    cases hstep with
    | app _ htype hoperator hoperand =>
      cases hoperator with
      | lam hbody =>
        exact .letIn n (ihtype htype) (ihoperand hoperand) (ihbody (hbody.inst hoperand))
    | beta _ _ hbody hoperand => exact ihbody (hbody.inst hoperand)
  | proj n _ _ hmember ihtype ihoperator =>
    cases hstep with
    | proj _ index htype hoperator =>
      exact .proj n (ihtype htype) (ihoperator hoperator)
        (hmember.convert (fun j ↦ .proj n j htype.conv hoperator.conv) (.refl _))
    | select _ _ hmembers hm =>
      obtain ⟨_, hconv, hrecord⟩ := (ihoperator (.record hmembers)).record_inv
      refine HasType.nth hmember (hrecord.conv hconv.signature_inj) (fun j a ha ↦ ?_) hm
      exact (Conv.proj n j (.refl _) (.record hmembers.conv)).trans (.select n _ ha)
  | conv _ hconv ih => exact (ih hstep).conv hconv

theorem HasType.reduces {Γ : Assignment} {t t' T : Nameless} (h : HasType Γ t T)
    (hsteps : Reduces t t') : HasType Γ t' T := by
  induction hsteps with
  | refl => exact h
  | tail _ hstep ih => exact ih.par hstep

end RankedTT.Nameless
