import Mathlib.Data.Set.Basic
import RankedTT.Prelude
import RankedTT.Proofs.Alike
import RankedTT.Proofs.CaptureFree

/-!
Core terms with the operations of the prelude in place of their names. Every operation has two
names, a word and a symbol. A term resolves to another one if the second has, wherever the first
mentions an operation by name, the operation itself as a constant. Names of operations are in the
way of no renaming: a binder that is renamed is given another name, and the anonymous binder, whose
name is the symbol for multiplication, is never renamed. So substitution and normalization take
terms that resolve to others to terms that resolve to theirs.

A name of an operation that an anonymous binder has captured is no longer that of the operation. The
relation therefore says which names of operations may be free, and which may occur below an
anonymous binder. Without captured names, a normal form has no name of an operation in it.
-/

set_option autoImplicit false
set_option relaxedAutoImplicit false

namespace RankedTT

/-! ### Names of operations -/

namespace Prelude

def operations : List BinaryOp := [.plus, .minus, .times, .concat]

/-- The operation with the name `x`. -/
def operator? (x : String) : Option BinaryOp :=
  operations.find? fun op ↦ x == op.name || x == symbol op

@[simp]
theorem operator?_name (op : BinaryOp) : operator? op.name = some op := by
  cases op <;> decide

theorem eq_of_operator?_eq_some {x : String} {op : BinaryOp} (h : operator? x = some op) :
    x = op.name ∨ x = symbol op := by
  simpa using List.find?_some h

theorem ne_anonymous_of_operator?_eq_none {x : String} (h : operator? x = none) :
    x ≠ anonymous := by
  rintro rfl
  revert h
  decide

theorem operator?_of_isPrimed {x : String} (h : IsPrimed x) : operator? x = none := by
  refine Option.eq_none_iff_forall_ne_some.mpr fun op hop ↦ ?_
  have hlast := h.getLast?_eq
  rcases eq_of_operator?_eq_some hop with h | h <;> rw [h] at hlast <;> revert hlast <;>
    cases op <;> decide

@[simp]
theorem operator?_generatedName (k : Nat) : operator? (generatedName k) = none := by
  refine Option.eq_none_iff_forall_ne_some.mpr fun op hop ↦ ?_
  have hhead := head?_generatedName k
  rcases eq_of_operator?_eq_some hop with h | h <;> rw [h] at hhead <;> revert hhead <;>
    cases op <;> decide

end Prelude

open Prelude (operator?)

/-! ### Names that are not those of operations -/

/-- Names without primes are not in the way of a primed name. -/
theorem freshPrimed_filter {p : String → Bool} (hp : ∀ x, IsPrimed x → p x = true)
    (taken : List String) (name : String) :
    freshPrimed (taken.filter p) name = freshPrimed taken name := by
  obtain ⟨_, -, hloop⟩ := loop_freshPrimed taken name
  obtain ⟨_, -, hfiltered⟩ := loop_freshPrimed (taken.filter p) name
  have hcontains (x : String) (hx : IsPrimed x) :
      (taken.filter p).contains x = taken.contains x := by
    simp [hp x hx]
  have hsame := hfiltered.congr (fun stem _ ↦ ⟨stem, rfl⟩) hcontains ⟨name, rfl⟩
  exact (hsame.unique hloop).2

/-! ### Terms with their operations resolved -/

/-- Literals and operations, which are the constants of a program over the prelude. -/
def Value.IsPrimitive : Value → Prop
  | .int _ | .str _ | .host (.binary _) => True
  | _ => False

mutual

/-- The second term is the first one with operations in place of their names, stamps aside. The
names of operations in the first one are in `free`, and below an anonymous binder in `under`. No
other binder has such a name. -/
inductive Core.Resolves (under : Set String) : Set String → Core → Core → Prop
  | univ {free : Set String} (rank : Nat) : Core.Resolves under free (.univ rank) (.univ rank)
  | arrow {free : Set String} (polarity : Polarity) (rank : Nat)
      {domain domain' codomain codomain' : Core} (hdomain : Core.Resolves under free domain domain')
      (hcodomain : Core.Resolves under under codomain codomain') :
      Core.Resolves under free (.quant polarity rank domain anonymous codomain)
        (.quant polarity rank domain' anonymous codomain')
  | quant {free : Set String} (polarity : Polarity) (rank : Nat) {name : String}
      {domain domain' codomain codomain' : Core} (hname : operator? name = none)
      (hdomain : Core.Resolves under free domain domain')
      (hcodomain : Core.Resolves under free codomain codomain') :
      Core.Resolves under free (.quant polarity rank domain name codomain)
        (.quant polarity rank domain' name codomain')
  | signature {free : Set String} {types types' : Telescope}
      (htypes : Telescope.Resolves under free types types') :
      Core.Resolves under free (.signature types) (.signature types')
  | lam {free : Set String} {param : String} (stamp stamp' : Stamp) {body body' : Core}
      (hparam : operator? param = none) (hbody : Core.Resolves under free body body') :
      Core.Resolves under free (.lam param stamp body) (.lam param stamp' body')
  | record {free : Set String} {members members' : List Core}
      (hmembers : Core.ResolvesMembers under free members members') :
      Core.Resolves under free (.record members) (.record members')
  | app {free : Set String} (rank : Nat) {type type' operator operator' operand operand' : Core}
      (htype : Core.Resolves under free type type')
      (hoperator : Core.Resolves under free operator operator')
      (hoperand : Core.Resolves under free operand operand') :
      Core.Resolves under free (.app rank type operator operand)
        (.app rank type' operator' operand')
  | proj {free : Set String} (rank index : Nat) {type type' operator operator' : Core}
      (htype : Core.Resolves under free type type')
      (hoperator : Core.Resolves under free operator operator') :
      Core.Resolves under free (.proj rank type operator index) (.proj rank type' operator' index)
  | var {free : Set String} {name : String} (hname : operator? name = none) :
      Core.Resolves under free (.var name) (.var name)
  | operation {free : Set String} {name : String} {op : BinaryOp}
      (hname : operator? name = some op) (hfree : name ∈ free) :
      Core.Resolves under free (.var name) (.const (.host (.binary op)))
  | const {free : Set String} {value : Value} (hvalue : value.IsPrimitive) :
      Core.Resolves under free (.const value) (.const value)

inductive Telescope.Resolves (under : Set String) : Set String → Telescope → Telescope → Prop
  | nil {free : Set String} : Telescope.Resolves under free .nil .nil
  | cons {free : Set String} (rank : Nat) {name : String} {type type' : Core}
      {rest rest' : Telescope} (hname : operator? name = none)
      (htype : Core.Resolves under free type type')
      (hrest : Telescope.Resolves under free rest rest') :
      Telescope.Resolves under free (.cons rank type name rest) (.cons rank type' name rest')

inductive Core.ResolvesMembers (under : Set String) : Set String → List Core → List Core → Prop
  | nil {free : Set String} : Core.ResolvesMembers under free [] []
  | cons {free : Set String} {t u : Core} {ts us : List Core}
      (hhead : Core.Resolves under free t u) (htail : Core.ResolvesMembers under free ts us) :
      Core.ResolvesMembers under free (t :: ts) (u :: us)

end

namespace Core

variable {under free : Set String}

theorem resolvesMembers_iff {ts us : List Core} :
    ResolvesMembers under free ts us ↔ List.Forall₂ (Resolves under free) ts us := by
  constructor
  · intro h
    induction ts generalizing us with
    | nil =>
      cases h
      exact .nil
    | cons t ts ih =>
      cases h with
      | cons hhead htail => exact .cons hhead (ih htail)
  · intro h
    induction h with
    | nil => exact .nil
    | cons hhead _ ih => exact .cons hhead ih

end Core

section Resolves

variable {under : Set String}

mutual

theorem Core.Resolves.mono {free : Set String} {t u : Core} {under' free' : Set String}
    (hunder : under ⊆ under') (hfree : free ⊆ free') :
    Core.Resolves under free t u → Core.Resolves under' free' t u
  | .univ rank => .univ rank
  | .arrow polarity rank hdomain hcodomain =>
    .arrow polarity rank (hdomain.mono hunder hfree) (hcodomain.mono hunder hunder)
  | .quant polarity rank hname hdomain hcodomain =>
    .quant polarity rank hname (hdomain.mono hunder hfree) (hcodomain.mono hunder hfree)
  | .signature htypes => .signature (htypes.mono hunder hfree)
  | .lam stamp stamp' hparam hbody => .lam stamp stamp' hparam (hbody.mono hunder hfree)
  | .record hmembers => .record (hmembers.mono hunder hfree)
  | .app rank htype hoperator hoperand =>
    .app rank (htype.mono hunder hfree) (hoperator.mono hunder hfree) (hoperand.mono hunder hfree)
  | .proj rank index htype hoperator =>
    .proj rank index (htype.mono hunder hfree) (hoperator.mono hunder hfree)
  | .var hname => .var hname
  | .operation hname hmem => .operation hname (hfree hmem)
  | .const hvalue => .const hvalue

theorem Telescope.Resolves.mono {free : Set String} {ts us : Telescope} {under' free' : Set String}
    (hunder : under ⊆ under') (hfree : free ⊆ free') :
    Telescope.Resolves under free ts us → Telescope.Resolves under' free' ts us
  | .nil => .nil
  | .cons rank hname htype hrest =>
    .cons rank hname (htype.mono hunder hfree) (hrest.mono hunder hfree)

theorem Core.ResolvesMembers.mono {free : Set String} {ts us : List Core}
    {under' free' : Set String} (hunder : under ⊆ under') (hfree : free ⊆ free') :
    Core.ResolvesMembers under free ts us → Core.ResolvesMembers under' free' ts us
  | .nil => .nil
  | .cons hhead htail => .cons (hhead.mono hunder hfree) (htail.mono hunder hfree)

end

/-! ### Terms without names of operations -/

mutual

/-- Names of operations that might occur, but do not. -/
theorem Core.Resolves.of_not_mem {names : Set String} {t u : Core} :
    Core.Resolves names names t u → (∀ x ∈ names, (.reference, x) ∉ t.names) →
      Core.Resolves ∅ ∅ t u
  | .univ rank, _ => .univ rank
  | .arrow polarity rank hdomain hcodomain, h =>
    .arrow polarity rank
      (hdomain.of_not_mem fun x hx hmem ↦ h x hx (by simp [Core.names, hmem]))
      (hcodomain.of_not_mem fun x hx hmem ↦ h x hx (by simp [Core.names, hmem]))
  | .quant polarity rank hname hdomain hcodomain, h =>
    .quant polarity rank hname
      (hdomain.of_not_mem fun x hx hmem ↦ h x hx (by simp [Core.names, hmem]))
      (hcodomain.of_not_mem fun x hx hmem ↦ h x hx (by simp [Core.names, hmem]))
  | .signature htypes, h => .signature (htypes.of_not_mem h)
  | .lam stamp stamp' hparam hbody, h =>
    .lam stamp stamp' hparam
      (hbody.of_not_mem fun x hx hmem ↦ h x hx (by simp [Core.names, hmem]))
  | .record hmembers, h => .record (hmembers.of_not_mem h)
  | .app rank htype hoperator hoperand, h =>
    .app rank (htype.of_not_mem fun x hx hmem ↦ h x hx (by simp [Core.names, hmem]))
      (hoperator.of_not_mem fun x hx hmem ↦ h x hx (by simp [Core.names, hmem]))
      (hoperand.of_not_mem fun x hx hmem ↦ h x hx (by simp [Core.names, hmem]))
  | .proj rank index htype hoperator, h =>
    .proj rank index (htype.of_not_mem fun x hx hmem ↦ h x hx (by simp [Core.names, hmem]))
      (hoperator.of_not_mem fun x hx hmem ↦ h x hx (by simp [Core.names, hmem]))
  | .var hname, _ => .var hname
  | .operation _ hfree, h => absurd (by simp [Core.names]) (h _ hfree)
  | .const hvalue, _ => .const hvalue

theorem Telescope.Resolves.of_not_mem {names : Set String} {ts us : Telescope} :
    Telescope.Resolves names names ts us → (∀ x ∈ names, (.reference, x) ∉ ts.names) →
      Telescope.Resolves ∅ ∅ ts us
  | .nil, _ => .nil
  | .cons rank hname htype hrest, h =>
    .cons rank hname (htype.of_not_mem fun x hx hmem ↦ h x hx (by simp [Telescope.names, hmem]))
      (hrest.of_not_mem fun x hx hmem ↦ h x hx (by simp [Telescope.names, hmem]))

theorem Core.ResolvesMembers.of_not_mem {names : Set String} {ts us : List Core} :
    Core.ResolvesMembers names names ts us →
      (∀ x ∈ names, (.reference, x) ∉ Core.namesMembers ts) → Core.ResolvesMembers ∅ ∅ ts us
  | .nil, _ => .nil
  | .cons hhead htail, h =>
    .cons (hhead.of_not_mem fun x hx hmem ↦ h x hx (by simp [Core.namesMembers, hmem]))
      (htail.of_not_mem fun x hx hmem ↦ h x hx (by simp [Core.namesMembers, hmem]))

end

mutual

/-- A term without names of operations resolves to itself. -/
theorem Core.Resolves.alike {t u : Core} :
    Core.Resolves ∅ ∅ t u → t.Alike (fun _ ↦ True) u
  | .univ rank => .univ rank
  | .arrow polarity rank hdomain hcodomain =>
    .quant polarity rank _ hdomain.alike hcodomain.alike
  | .quant polarity rank _ hdomain hcodomain =>
    .quant polarity rank _ hdomain.alike hcodomain.alike
  | .signature htypes => .signature htypes.alike
  | .lam stamp stamp' _ hbody => .lam _ stamp stamp' hbody.alike
  | .record hmembers => .record hmembers.alike
  | .app rank htype hoperator hoperand => .app rank htype.alike hoperator.alike hoperand.alike
  | .proj rank index htype hoperator => .proj rank index htype.alike hoperator.alike
  | .var _ => .var _
  | .operation _ hfree => absurd hfree (Set.notMem_empty _)
  | .const _ => .const trivial

theorem Telescope.Resolves.alike {ts us : Telescope} :
    Telescope.Resolves ∅ ∅ ts us → ts.Alike (fun _ ↦ True) us
  | .nil => .nil
  | .cons rank _ htype hrest => .cons rank _ htype.alike hrest.alike

theorem Core.ResolvesMembers.alike {ts us : List Core} :
    Core.ResolvesMembers ∅ ∅ ts us → List.Forall₂ (Core.Alike fun _ ↦ True) ts us
  | .nil => .nil
  | .cons hhead htail => .cons hhead.alike htail.alike

end

/-! ### Stamps -/

mutual

/-- New stamps change nothing, whatever number they start from. -/
theorem Core.Resolves.assignStamps {free : Set String} {t u : Core} :
    Core.Resolves under free t u → (m n : Nat) →
      Core.Resolves under free (t.assignStamps m).1 (u.assignStamps n).1
  | .univ rank, _, _ => .univ rank
  | .arrow polarity rank hdomain hcodomain, m, n =>
    .arrow polarity rank (hdomain.assignStamps m n) (hcodomain.assignStamps _ _)
  | .quant polarity rank hname hdomain hcodomain, m, n =>
    .quant polarity rank hname (hdomain.assignStamps m n) (hcodomain.assignStamps _ _)
  | .signature htypes, m, n => .signature (htypes.assignStamps m n)
  | .lam none none hparam hbody, m, n =>
    .lam _ _ hparam (hbody.assignStamps (m + 1) (n + 1))
  | .lam none (some _) hparam hbody, m, n => .lam _ _ hparam (hbody.assignStamps (m + 1) n)
  | .lam (some _) none hparam hbody, m, n => .lam _ _ hparam (hbody.assignStamps m (n + 1))
  | .lam (some _) (some _) hparam hbody, m, n => .lam _ _ hparam (hbody.assignStamps m n)
  | .record hmembers, m, n => .record (hmembers.assignStamps m n)
  | .app rank htype hoperator hoperand, m, n =>
    .app rank (htype.assignStamps m n) (hoperator.assignStamps _ _) (hoperand.assignStamps _ _)
  | .proj rank index htype hoperator, m, n =>
    .proj rank index (htype.assignStamps m n) (hoperator.assignStamps _ _)
  | .var hname, _, _ => .var hname
  | .operation hname hfree, _, _ => .operation hname hfree
  | .const hvalue, _, _ => .const hvalue

theorem Telescope.Resolves.assignStamps {free : Set String} {ts us : Telescope} :
    Telescope.Resolves under free ts us → (m n : Nat) →
      Telescope.Resolves under free (ts.assignStamps m).1 (us.assignStamps n).1
  | .nil, _, _ => .nil
  | .cons rank hname htype hrest, m, n =>
    .cons rank hname (htype.assignStamps m n) (hrest.assignStamps _ _)

theorem Core.ResolvesMembers.assignStamps {free : Set String} {ts us : List Core} :
    Core.ResolvesMembers under free ts us → (m n : Nat) →
      Core.ResolvesMembers under free (Core.assignStampsMembers ts m).1
        (Core.assignStampsMembers us n).1
  | .nil, _, _ => .nil
  | .cons hhead htail, m, n => .cons (hhead.assignStamps m n) (htail.assignStamps _ _)

end

/-! ### Free names -/

/-- Names that are not those of operations. -/
def isPlain (x : String) : Bool := (operator? x).isNone

theorem isPlain_iff {x : String} : isPlain x = true ↔ operator? x = none :=
  Option.isNone_iff_eq_none

mutual

/-- Resolving the operations of a term leaves it the other free names. -/
theorem Core.Resolves.freeNames_eq {free : Set String} {t u : Core} :
    Core.Resolves under free t u → u.freeNames = t.freeNames.filter isPlain
  | .univ _ | .const _ => rfl
  | .arrow _ _ hdomain hcodomain => by
    simp [Core.freeNames, hdomain.freeNames_eq, hcodomain.freeNames_eq, Bool.and_comm]
  | .quant _ _ _ hdomain hcodomain => by
    simp [Core.freeNames, hdomain.freeNames_eq, hcodomain.freeNames_eq, Bool.and_comm]
  | .signature htypes => by simp only [Core.freeNames, htypes.freeNames_eq]
  | .lam _ _ _ hbody => by simp [Core.freeNames, hbody.freeNames_eq, Bool.and_comm]
  | .record hmembers => by simp only [Core.freeNames, hmembers.freeNames_eq]
  | .app _ htype hoperator hoperand => by
    simp [Core.freeNames, htype.freeNames_eq, hoperator.freeNames_eq, hoperand.freeNames_eq]
  | .proj _ _ htype hoperator => by
    simp [Core.freeNames, htype.freeNames_eq, hoperator.freeNames_eq]
  | .var hname => by simp [Core.freeNames, isPlain_iff.mpr hname]
  | .operation hname _ => by simp [Core.freeNames, isPlain, hname]

theorem Telescope.Resolves.freeNames_eq {free : Set String} {ts us : Telescope} :
    Telescope.Resolves under free ts us → us.freeNames = ts.freeNames.filter isPlain
  | .nil => rfl
  | .cons _ _ htype hrest => by
    simp [Telescope.freeNames, htype.freeNames_eq, hrest.freeNames_eq, Bool.and_comm]

theorem Core.ResolvesMembers.freeNames_eq {free : Set String} {ts us : List Core} :
    Core.ResolvesMembers under free ts us →
      Core.freeNamesMembers us = (Core.freeNamesMembers ts).filter isPlain
  | .nil => rfl
  | .cons hhead htail => by
    simp [Core.freeNamesMembers, hhead.freeNames_eq, htail.freeNames_eq]

end

theorem Core.Resolves.occursFree_eq {free : Set String} {t u : Core}
    (h : Core.Resolves under free t u) {x : String} (hx : operator? x = none) :
    t.occursFree x = u.occursFree x := by
  rw [Bool.eq_iff_iff, Core.occursFree_iff_mem, Core.occursFree_iff_mem, h.freeNames_eq]
  simp [isPlain_iff.mpr hx]

/-! ### Substitution -/

/-- The same names, none of them that of an operation, for terms that resolve. -/
def Substitution.Resolves (names : Set String) : Substitution → Substitution → Prop :=
  List.Forall₂ fun entry entry' ↦ entry.1 = entry'.1 ∧ operator? entry.1 = none ∧
    Core.Resolves names names entry.2 entry'.2

namespace Substitution.Resolves

variable {names : Set String} {σ σ' : Substitution}

theorem get?_getD (h : Resolves names σ σ') {x : String} (hx : operator? x = none) :
    Core.Resolves names names ((get? σ x).getD (.var x)) ((get? σ' x).getD (.var x)) := by
  induction h with
  | nil => exact .var hx
  | @cons entry entry' _ _ hentry _ ih =>
    obtain ⟨hname, -, hterm⟩ := hentry
    unfold get? at ih ⊢
    rw [List.lookup_cons, List.lookup_cons, ← hname]
    cases x == entry.1 with
    | true => exact hterm
    | false => exact ih

theorem get?_operator (h : Resolves names σ σ') {x : String} {op : BinaryOp}
    (hx : operator? x = some op) : get? σ x = none := by
  induction h with
  | nil => rfl
  | @cons entry _ _ _ hentry _ ih =>
    obtain ⟨-, hplain, -⟩ := hentry
    obtain ⟨y, s⟩ := entry
    rw [get?_cons, if_neg, ih]
    rintro rfl
    rw [hx] at hplain
    cases hplain

theorem without (h : Resolves names σ σ') (x : String) :
    Resolves names (σ.without x) (σ'.without x) :=
  List.rel_filter (fun _ _ hentry ↦ by simp only [hentry.1]) h

theorem insert (h : Resolves names σ σ') {x : String} (hx : operator? x = none) {t u : Core}
    (ht : Core.Resolves names names t u) : Resolves names (σ.insert x t) (σ'.insert x u) :=
  List.rel_append (h.without x) (.cons ⟨rfl, hx, ht⟩ .nil)

theorem single {x : String} (hx : operator? x = none) {t u : Core}
    (ht : Core.Resolves names names t u) : Resolves names (.single x t) (.single x u) :=
  .cons ⟨rfl, hx, ht⟩ .nil

theorem captures_eq (h : Resolves names σ σ') {x : String} (hx : operator? x = none) :
    σ.captures x = σ'.captures x := by
  induction h with
  | nil => rfl
  | cons hentry _ ih =>
    unfold captures at ih ⊢
    rw [List.any_cons, List.any_cons, hentry.2.2.occursFree_eq hx, ih]

theorem freeNames_eq (h : Resolves names σ σ') :
    freeNames σ' = (freeNames σ).filter isPlain := by
  induction h with
  | nil => rfl
  | cons hentry _ ih =>
    unfold freeNames at ih ⊢
    rw [List.flatMap_cons, List.flatMap_cons, List.filter_append, hentry.2.2.freeNames_eq, ih]

/-- A binder gets the same name on both sides, which is not that of an operation. -/
theorem enter (h : Resolves names σ σ') {x : String} (hx : operator? x = none)
    {under free : Set String} {t u : Core} (ht : Core.Resolves under free t u) :
    (enter σ x t).1 = (enter σ' x u).1 ∧ operator? (enter σ x t).1 = none ∧
      Resolves names (enter σ x t).2 (enter σ' x u).2 := by
  have hinner := h.without x
  have hfresh : freshPrimed (freeNames (σ'.without x) ++ u.freeNames) x =
      freshPrimed (freeNames (σ.without x) ++ t.freeNames) x := by
    rw [hinner.freeNames_eq, ht.freeNames_eq, ← List.filter_append]
    exact freshPrimed_filter (fun _ h ↦ isPlain_iff.mpr (Prelude.operator?_of_isPrimed h)) _ _
  have hplain := Prelude.operator?_of_isPrimed
    (isPrimed_freshPrimed (freeNames (σ.without x) ++ t.freeNames) x)
  simp only [Substitution.enter, hinner.captures_eq hx, hfresh]
  split
  · exact ⟨rfl, hx, hinner⟩
  · exact ⟨rfl, hplain, hinner.insert hx (.var hplain)⟩

end Substitution.Resolves

mutual

/-- Substitution below an anonymous binder captures names of operations, so those in the images have
to be allowed there. -/
theorem Core.Resolves.subst {free names : Set String} (hunder : names ⊆ under) {t u : Core} :
    Core.Resolves under free t u → names ⊆ free → {σ σ' : Substitution} →
      Substitution.Resolves names σ σ' → Core.Resolves under free (t.subst σ) (u.subst σ')
  | h, _, [], [], _ => by
    rw [Core.subst_nil, Core.subst_nil]
    exact h
  | .univ rank, _, _ :: _, _ :: _, _ => by
    unfold Core.subst
    exact .univ rank
  | .arrow polarity rank hdomain hcodomain, hfree, _ :: _, _ :: _, hσ => by
    unfold Core.subst
    exact .arrow polarity rank (hdomain.subst hunder hfree hσ)
      (hcodomain.subst hunder hunder (hσ.without anonymous))
  | .quant polarity rank hname hdomain hcodomain, hfree, _ :: _, _ :: _, hσ => by
    obtain ⟨hbinder, hplain, hinner⟩ := hσ.enter hname hcodomain
    unfold Core.subst
    simp only [List.isEmpty_cons, Bool.false_eq_true, if_false, ← hbinder]
    exact .quant polarity rank hplain (hdomain.subst hunder hfree hσ)
      (hcodomain.subst hunder hfree hinner)
  | .signature htypes, hfree, _ :: _, _ :: _, hσ => by
    unfold Core.subst
    exact .signature (htypes.subst hunder hfree hσ)
  | .lam _ _ hparam hbody, hfree, _ :: _, _ :: _, hσ => by
    obtain ⟨hbinder, hplain, hinner⟩ := hσ.enter hparam hbody
    unfold Core.subst
    simp only [List.isEmpty_cons, Bool.false_eq_true, if_false, ← hbinder]
    exact .lam _ _ hplain (hbody.subst hunder hfree hinner)
  | .record hmembers, hfree, _ :: _, _ :: _, hσ => by
    unfold Core.subst
    exact .record (hmembers.subst hunder hfree hσ)
  | .app rank htype hoperator hoperand, hfree, _ :: _, _ :: _, hσ => by
    unfold Core.subst
    exact .app rank (htype.subst hunder hfree hσ) (hoperator.subst hunder hfree hσ)
      (hoperand.subst hunder hfree hσ)
  | .proj rank index htype hoperator, hfree, _ :: _, _ :: _, hσ => by
    unfold Core.subst
    exact .proj rank index (htype.subst hunder hfree hσ) (hoperator.subst hunder hfree hσ)
  | .var hname, hfree, _ :: _, _ :: _, hσ => by
    unfold Core.subst
    exact (hσ.get?_getD hname).mono hunder hfree
  | .operation hname hmem, _, _ :: _, _ :: _, hσ => by
    unfold Core.subst
    simp only [List.isEmpty_cons, Bool.false_eq_true, if_false, hσ.get?_operator hname]
    exact .operation hname hmem
  | .const hvalue, _, _ :: _, _ :: _, _ => by
    unfold Core.subst
    exact .const hvalue

theorem Telescope.Resolves.subst {free names : Set String} (hunder : names ⊆ under)
    {ts us : Telescope} :
    Telescope.Resolves under free ts us → names ⊆ free → {σ σ' : Substitution} →
      Substitution.Resolves names σ σ' → Telescope.Resolves under free (ts.subst σ) (us.subst σ')
  | .nil, _, _, _, _ => .nil
  | .cons rank hname htype hrest, hfree, _, _, hσ => by
    unfold Telescope.subst
    exact .cons rank hname (htype.subst hunder hfree hσ)
      (hrest.subst hunder hfree (hσ.without _))

theorem Core.ResolvesMembers.subst {free names : Set String} (hunder : names ⊆ under)
    {ts us : List Core} :
    Core.ResolvesMembers under free ts us → names ⊆ free → {σ σ' : Substitution} →
      Substitution.Resolves names σ σ' →
        Core.ResolvesMembers under free (Core.substMembers σ ts) (Core.substMembers σ' us)
  | .nil, _, _, _, _ => .nil
  | .cons hhead htail, hfree, _, _, hσ => by
    unfold Core.substMembers
    exact .cons (hhead.subst hunder hfree hσ) (htail.subst hunder hfree hσ)

end

end Resolves

end RankedTT
