import RankedTT.Conversion
import RankedTT.Journal
import RankedTT.Proofs.NamelessForm
import RankedTT.Proofs.Normalizes
import RankedTT.Proofs.Simulation

/-!
Terms that are alike: they differ in the stamps of their function bodies at most. Substitution,
normalization and the comparison of terms do not look at stamps, so alike terms have alike reducts
and alike normal forms, and a comparison gives the same answer for them. Alikeness also keeps track
of constants: all constants of alike terms have a property `S` that is given.
-/

set_option autoImplicit false
set_option relaxedAutoImplicit false

namespace RankedTT

mutual

/-- The terms differ in stamps only, and their constants have the property `S`. -/
inductive Core.Alike (S : Value → Prop) : Core → Core → Prop
  | univ (rank : Nat) : Core.Alike S (.univ rank) (.univ rank)
  | quant (polarity : Polarity) (rank : Nat) (name : String)
      {domain domain' codomain codomain' : Core} (hdomain : Core.Alike S domain domain')
      (hcodomain : Core.Alike S codomain codomain') :
      Core.Alike S (.quant polarity rank domain name codomain)
        (.quant polarity rank domain' name codomain')
  | signature {types types' : Telescope} (htypes : Telescope.Alike S types types') :
      Core.Alike S (.signature types) (.signature types')
  | lam (param : String) (stamp stamp' : Stamp) {body body' : Core}
      (hbody : Core.Alike S body body') :
      Core.Alike S (.lam param stamp body) (.lam param stamp' body')
  | record {members members' : List Core}
      (hmembers : List.Forall₂ (Core.Alike S) members members') :
      Core.Alike S (.record members) (.record members')
  | app (rank : Nat) {type type' operator operator' operand operand' : Core}
      (htype : Core.Alike S type type') (hoperator : Core.Alike S operator operator')
      (hoperand : Core.Alike S operand operand') :
      Core.Alike S (.app rank type operator operand) (.app rank type' operator' operand')
  | proj (rank index : Nat) {type type' operator operator' : Core}
      (htype : Core.Alike S type type') (hoperator : Core.Alike S operator operator') :
      Core.Alike S (.proj rank type operator index) (.proj rank type' operator' index)
  | var (name : String) : Core.Alike S (.var name) (.var name)
  | const {value : Value} (h : S value) : Core.Alike S (.const value) (.const value)

inductive Telescope.Alike (S : Value → Prop) : Telescope → Telescope → Prop
  | nil : Telescope.Alike S .nil .nil
  | cons (rank : Nat) (name : String) {type type' : Core} {rest rest' : Telescope}
      (htype : Core.Alike S type type') (hrest : Telescope.Alike S rest rest') :
      Telescope.Alike S (.cons rank type name rest) (.cons rank type' name rest')

end

mutual

/-- The constants of a term. -/
def Core.constants : Core → List Value
  | .univ _ | .var _ => []
  | .quant _ _ domain _ codomain => domain.constants ++ codomain.constants
  | .signature members => members.constants
  | .lam _ _ body => body.constants
  | .record members => Core.constantsMembers members
  | .app _ type operator operand => type.constants ++ operator.constants ++ operand.constants
  | .proj _ type operator _ => type.constants ++ operator.constants
  | .const value => [value]

def Telescope.constants : Telescope → List Value
  | .nil => []
  | .cons _ type _ rest => type.constants ++ rest.constants

def Core.constantsMembers : List Core → List Value
  | [] => []
  | m :: ms => m.constants ++ Core.constantsMembers ms

end

section Alike

variable {S : Value → Prop}

mutual

theorem Core.alike_self : (t : Core) → (∀ v ∈ t.constants, S v) → t.Alike S t
  | .univ rank, _ => .univ rank
  | .var name, _ => .var name
  | .quant polarity rank domain name codomain, h => by
    obtain ⟨hdomain, hcodomain⟩ := List.forall_mem_append.mp h
    exact .quant polarity rank name (domain.alike_self hdomain) (codomain.alike_self hcodomain)
  | .signature members, h => .signature (members.alike_self h)
  | .lam param stamp body, h => .lam param stamp stamp (body.alike_self h)
  | .record members, h => .record (Core.alike_self_members members h)
  | .app rank type operator operand, h => by
    obtain ⟨h, hoperand⟩ := List.forall_mem_append.mp h
    obtain ⟨htype, hoperator⟩ := List.forall_mem_append.mp h
    exact .app rank (type.alike_self htype) (operator.alike_self hoperator)
      (operand.alike_self hoperand)
  | .proj rank type operator index, h => by
    obtain ⟨htype, hoperator⟩ := List.forall_mem_append.mp h
    exact .proj rank index (type.alike_self htype) (operator.alike_self hoperator)
  | .const value, h => .const (h value (List.mem_singleton_self value))

theorem Telescope.alike_self : (t : Telescope) → (∀ v ∈ t.constants, S v) → t.Alike S t
  | .nil, _ => .nil
  | .cons rank type name rest, h => by
    obtain ⟨htype, hrest⟩ := List.forall_mem_append.mp h
    exact .cons rank name (type.alike_self htype) (rest.alike_self hrest)

theorem Core.alike_self_members : (ts : List Core) → (∀ v ∈ Core.constantsMembers ts, S v) →
    List.Forall₂ (Core.Alike S) ts ts
  | [], _ => .nil
  | m :: ms, h => by
    obtain ⟨hm, hms⟩ := List.forall_mem_append.mp h
    exact .cons (m.alike_self hm) (Core.alike_self_members ms hms)

end

mutual

theorem Core.Alike.constants {t t' : Core} : t.Alike S t' → ∀ v ∈ t.constants, S v
  | .univ _ | .var _ => by simp [Core.constants]
  | .quant _ _ _ hdomain hcodomain =>
    List.forall_mem_append.mpr ⟨hdomain.constants, hcodomain.constants⟩
  | .signature htypes => htypes.constants
  | .lam _ _ _ hbody => hbody.constants
  | .record hmembers => Core.constants_of_alikeMembers hmembers
  | .app _ htype hoperator hoperand =>
    List.forall_mem_append.mpr
      ⟨List.forall_mem_append.mpr ⟨htype.constants, hoperator.constants⟩, hoperand.constants⟩
  | .proj _ _ htype hoperator =>
    List.forall_mem_append.mpr ⟨htype.constants, hoperator.constants⟩
  | .const h => by simpa [Core.constants] using h

theorem Telescope.Alike.constants {t t' : Telescope} : t.Alike S t' → ∀ v ∈ t.constants, S v
  | .nil => by simp [Telescope.constants]
  | .cons _ _ htype hrest => List.forall_mem_append.mpr ⟨htype.constants, hrest.constants⟩

theorem Core.constants_of_alikeMembers {ts ts' : List Core} :
    List.Forall₂ (Core.Alike S) ts ts' → ∀ v ∈ Core.constantsMembers ts, S v
  | .nil => by simp [Core.constantsMembers]
  | .cons hhead htail =>
    List.forall_mem_append.mpr ⟨hhead.constants, Core.constants_of_alikeMembers htail⟩

end

mutual

theorem Core.Alike.constants_eq {t t' : Core} : t.Alike S t' → t.constants = t'.constants
  | .univ _ | .var _ | .const _ => rfl
  | .quant _ _ _ hdomain hcodomain => by
    simp only [Core.constants, hdomain.constants_eq, hcodomain.constants_eq]
  | .signature htypes => by simp only [Core.constants, htypes.constants_eq]
  | .lam _ _ _ hbody => by simp only [Core.constants, hbody.constants_eq]
  | .record hmembers => by simp only [Core.constants, Core.constantsMembers_eq_of_alike hmembers]
  | .app _ htype hoperator hoperand => by
    simp only [Core.constants, htype.constants_eq, hoperator.constants_eq, hoperand.constants_eq]
  | .proj _ _ htype hoperator => by
    simp only [Core.constants, htype.constants_eq, hoperator.constants_eq]

theorem Telescope.Alike.constants_eq {t t' : Telescope} : t.Alike S t' → t.constants = t'.constants
  | .nil => rfl
  | .cons _ _ htype hrest => by
    simp only [Telescope.constants, htype.constants_eq, hrest.constants_eq]

theorem Core.constantsMembers_eq_of_alike {ts ts' : List Core} :
    List.Forall₂ (Core.Alike S) ts ts' → Core.constantsMembers ts = Core.constantsMembers ts'
  | .nil => rfl
  | .cons hhead htail => by
    simp only [Core.constantsMembers, hhead.constants_eq, Core.constantsMembers_eq_of_alike htail]

end

/-! ### Names and comparison -/

mutual

/-- Alike terms have the same nameless form. -/
theorem Core.Alike.nameless_eq {t t' : Core} : t.Alike S t' → (scope : List String) →
    t.nameless scope = t'.nameless scope
  | .univ _, _ | .var _, _ | .const _, _ => rfl
  | .quant _ _ _ hdomain hcodomain, scope => by
    simp only [Core.nameless, hdomain.nameless_eq scope, hcodomain.nameless_eq (_ :: scope)]
  | .signature htypes, scope => by simp only [Core.nameless, htypes.nameless_eq scope]
  | .lam _ _ _ hbody, scope => by simp only [Core.nameless, hbody.nameless_eq (_ :: scope)]
  | .record hmembers, scope => by
    simp only [Core.nameless, Core.namelessMembers_eq_of_alike hmembers scope]
  | .app _ htype hoperator hoperand, scope => by
    simp only [Core.nameless, htype.nameless_eq scope, hoperator.nameless_eq scope,
      hoperand.nameless_eq scope]
  | .proj _ _ htype hoperator, scope => by
    simp only [Core.nameless, htype.nameless_eq scope, hoperator.nameless_eq scope]

theorem Telescope.Alike.nameless_eq {t t' : Telescope} : t.Alike S t' → (scope : List String) →
    t.nameless scope = t'.nameless scope
  | .nil, _ => rfl
  | .cons _ _ htype hrest, scope => by
    simp only [Telescope.nameless, htype.nameless_eq scope, hrest.nameless_eq (_ :: scope)]

theorem Core.namelessMembers_eq_of_alike {ts ts' : List Core} :
    List.Forall₂ (Core.Alike S) ts ts' → (scope : List String) →
      Core.namelessMembers scope ts = Core.namelessMembers scope ts'
  | .nil, _ => rfl
  | .cons hhead htail, scope => by
    simp only [Core.namelessMembers, hhead.nameless_eq scope,
      Core.namelessMembers_eq_of_alike htail scope]

end

theorem Core.Alike.alphaEq_eq {s s' t t' : Core} (hs : s.Alike S s') (ht : t.Alike S t') :
    s.alphaEq t = s'.alphaEq t' := by
  rw [Bool.eq_iff_iff, Core.alphaEq_iff, Core.alphaEq_iff, hs.nameless_eq, ht.nameless_eq]

mutual

theorem Core.Alike.unstamped_eq {t t' : Core} : t.Alike S t' → t.unstamped = t'.unstamped
  | .univ _ | .var _ | .const _ => rfl
  | .quant _ _ _ hdomain hcodomain => by
    simp only [Core.unstamped, hdomain.unstamped_eq, hcodomain.unstamped_eq]
  | .signature htypes => by simp only [Core.unstamped, htypes.unstamped_eq]
  | .lam _ _ _ hbody => by simp only [Core.unstamped, hbody.unstamped_eq]
  | .record hmembers => by simp only [Core.unstamped, Core.unstampedMembers_eq_of_alike hmembers]
  | .app _ htype hoperator hoperand => by
    simp only [Core.unstamped, htype.unstamped_eq, hoperator.unstamped_eq, hoperand.unstamped_eq]
  | .proj _ _ htype hoperator => by
    simp only [Core.unstamped, htype.unstamped_eq, hoperator.unstamped_eq]

theorem Telescope.Alike.unstamped_eq {t t' : Telescope} :
    t.Alike S t' → t.unstamped = t'.unstamped
  | .nil => rfl
  | .cons _ _ htype hrest => by
    simp only [Telescope.unstamped, htype.unstamped_eq, hrest.unstamped_eq]

theorem Core.unstampedMembers_eq_of_alike {ts ts' : List Core} :
    List.Forall₂ (Core.Alike S) ts ts' → Core.unstampedMembers ts = Core.unstampedMembers ts'
  | .nil => rfl
  | .cons hhead htail => by
    simp only [Core.unstampedMembers, hhead.unstamped_eq, Core.unstampedMembers_eq_of_alike htail]

end

mutual

/-- Where nothing is asked of constants, terms that differ in stamps only are alike. -/
theorem Core.alike_of_unstamped_eq (hS : ∀ v, S v) :
    (t t' : Core) → t.unstamped = t'.unstamped → t.Alike S t'
  | .univ _, t', h => by
    cases t' <;> cases h
    exact .univ _
  | .var _, t', h => by
    cases t' <;> cases h
    exact .var _
  | .const value, t', h => by
    cases t' <;> cases h
    exact .const (hS value)
  | .quant _ _ domain _ codomain, t', h => by
    cases t' <;> injection h
    subst_vars
    exact .quant _ _ _ (domain.alike_of_unstamped_eq hS _ ‹_›)
      (codomain.alike_of_unstamped_eq hS _ ‹_›)
  | .signature members, t', h => by
    cases t' <;> injection h
    exact .signature (members.alike_of_unstamped_eq hS _ ‹_›)
  | .lam _ stamp body, t', h => by
    cases t' <;> injection h
    subst_vars
    exact .lam _ stamp _ (body.alike_of_unstamped_eq hS _ ‹_›)
  | .record members, t', h => by
    cases t' <;> injection h
    exact .record (Core.alikeMembers_of_unstamped_eq hS members _ ‹_›)
  | .app _ type operator operand, t', h => by
    cases t' <;> injection h
    subst_vars
    exact .app _ (type.alike_of_unstamped_eq hS _ ‹_›)
      (operator.alike_of_unstamped_eq hS _ ‹_›) (operand.alike_of_unstamped_eq hS _ ‹_›)
  | .proj _ type operator _, t', h => by
    cases t' <;> injection h
    subst_vars
    exact .proj _ _ (type.alike_of_unstamped_eq hS _ ‹_›)
      (operator.alike_of_unstamped_eq hS _ ‹_›)

theorem Telescope.alike_of_unstamped_eq (hS : ∀ v, S v) :
    (t t' : Telescope) → t.unstamped = t'.unstamped → t.Alike S t'
  | .nil, t', h => by
    cases t' <;> cases h
    exact .nil
  | .cons _ type _ rest, t', h => by
    cases t' <;> injection h
    subst_vars
    exact .cons _ _ (type.alike_of_unstamped_eq hS _ ‹_›)
      (rest.alike_of_unstamped_eq hS _ ‹_›)

theorem Core.alikeMembers_of_unstamped_eq (hS : ∀ v, S v) :
    (ts ts' : List Core) → Core.unstampedMembers ts = Core.unstampedMembers ts' →
      List.Forall₂ (Core.Alike S) ts ts'
  | [], ts', h => by
    cases ts' <;> cases h
    exact .nil
  | m :: ms, ts', h => by
    cases ts' <;> injection h
    exact .cons (m.alike_of_unstamped_eq hS _ ‹_›)
      (Core.alikeMembers_of_unstamped_eq hS ms _ ‹_›)

end

theorem Core.alike_iff (hS : ∀ v, S v) {t t' : Core} :
    t.Alike S t' ↔ t.unstamped = t'.unstamped :=
  ⟨Core.Alike.unstamped_eq, t.alike_of_unstamped_eq hS t'⟩

theorem Core.Alike.freeNames_eq {t t' : Core} (h : t.Alike S t') : t.freeNames = t'.freeNames := by
  rw [← Core.freeNames_unstamped, h.unstamped_eq, Core.freeNames_unstamped]

theorem Core.Alike.names_eq {t t' : Core} (h : t.Alike S t') : t.names = t'.names := by
  rw [← Core.names_unstamped, h.unstamped_eq, Core.names_unstamped]

theorem Core.Alike.occursFree_eq {t t' : Core} (h : t.Alike S t') (x : String) :
    t.occursFree x = t'.occursFree x := by
  rw [Bool.eq_iff_iff, Core.occursFree_iff_mem, Core.occursFree_iff_mem, h.freeNames_eq]

mutual

/-- New stamps leave terms alike, whatever number they start from. -/
theorem Core.Alike.assignStamps {t t' : Core} : t.Alike S t' → (m n : Nat) →
    (t.assignStamps m).1.Alike S (t'.assignStamps n).1
  | .univ rank, _, _ => .univ rank
  | .var name, _, _ => .var name
  | .const h, _, _ => .const h
  | .quant polarity rank name hdomain hcodomain, m, n =>
    .quant polarity rank name (hdomain.assignStamps m n) (hcodomain.assignStamps _ _)
  | .signature htypes, m, n => .signature (htypes.assignStamps m n)
  | .lam param none none hbody, m, n => .lam param _ _ (hbody.assignStamps (m + 1) (n + 1))
  | .lam param none (some _) hbody, m, n => .lam param _ _ (hbody.assignStamps (m + 1) n)
  | .lam param (some _) none hbody, m, n => .lam param _ _ (hbody.assignStamps m (n + 1))
  | .lam param (some _) (some _) hbody, m, n => .lam param _ _ (hbody.assignStamps m n)
  | .record hmembers, m, n => .record (Core.alike_assignStampsMembers hmembers m n)
  | .app rank htype hoperator hoperand, m, n =>
    .app rank (htype.assignStamps m n) (hoperator.assignStamps _ _) (hoperand.assignStamps _ _)
  | .proj rank index htype hoperator, m, n =>
    .proj rank index (htype.assignStamps m n) (hoperator.assignStamps _ _)

theorem Telescope.Alike.assignStamps {t t' : Telescope} : t.Alike S t' → (m n : Nat) →
    (t.assignStamps m).1.Alike S (t'.assignStamps n).1
  | .nil, _, _ => .nil
  | .cons rank name htype hrest, m, n =>
    .cons rank name (htype.assignStamps m n) (hrest.assignStamps _ _)

theorem Core.alike_assignStampsMembers {ts ts' : List Core} :
    List.Forall₂ (Core.Alike S) ts ts' → (m n : Nat) →
      List.Forall₂ (Core.Alike S) (Core.assignStampsMembers ts m).1
        (Core.assignStampsMembers ts' n).1
  | .nil, _, _ => .nil
  | .cons hhead htail, m, n =>
    .cons (hhead.assignStamps m n) (Core.alike_assignStampsMembers htail _ _)

end

/-! ### Substitution and normalization -/

theorem NormEnv.maps_congr {env env' : NormEnv} (h : env.map Prod.fst = env'.map Prod.fst)
    (x : String) : Env.maps env x = Env.maps env' x := by
  rw [Bool.eq_iff_iff, NormEnv.maps_iff_mem, NormEnv.maps_iff_mem, h]

/-- The same names in the same order, for alike terms. -/
def AlikeBindings (S : Value → Prop) : List (String × Core) → List (String × Core) → Prop :=
  List.Forall₂ fun entry entry' ↦ entry.1 = entry'.1 ∧ entry.2.Alike S entry'.2

namespace AlikeBindings

variable {bindings bindings' : List (String × Core)}

theorem lookup_getD (h : AlikeBindings S bindings bindings') (x : String) {t t' : Core}
    (ht : t.Alike S t') :
    ((List.lookup x bindings).getD t).Alike S ((List.lookup x bindings').getD t') := by
  induction h with
  | nil => exact ht
  | @cons entry entry' _ _ hentry _ ih =>
    obtain ⟨hname, hterm⟩ := hentry
    rw [List.lookup_cons, List.lookup_cons, ← hname]
    cases x == entry.1 with
    | true => exact hterm
    | false => exact ih

theorem names_eq (h : AlikeBindings S bindings bindings') :
    bindings.map Prod.fst = bindings'.map Prod.fst := by
  induction h with
  | nil => rfl
  | cons hentry _ ih => rw [List.map_cons, List.map_cons, hentry.1, ih]

theorem maps_eq (h : AlikeBindings S bindings bindings') (x : String) :
    Env.maps bindings x = Env.maps bindings' x :=
  NormEnv.maps_congr h.names_eq x

theorem length_eq (h : AlikeBindings S bindings bindings') : bindings.length = bindings'.length :=
  List.Forall₂.length_eq h

theorem push (h : AlikeBindings S bindings bindings') (x : String) {t t' : Core}
    (ht : t.Alike S t') : AlikeBindings S (Env.push bindings x t) (Env.push bindings' x t') :=
  .cons ⟨rfl, ht⟩ h

theorem without (h : AlikeBindings S bindings bindings') (x : String) :
    AlikeBindings S (Substitution.without bindings x) (Substitution.without bindings' x) :=
  List.rel_filter (fun _ _ hentry ↦ by simp only [hentry.1]) h

theorem insert (h : AlikeBindings S bindings bindings') (x : String) {t t' : Core}
    (ht : t.Alike S t') :
    AlikeBindings S (Substitution.insert bindings x t) (Substitution.insert bindings' x t') :=
  List.rel_append (h.without x) (.cons ⟨rfl, ht⟩ .nil)

theorem captures_eq (h : AlikeBindings S bindings bindings') (x : String) :
    Substitution.captures bindings x = Substitution.captures bindings' x := by
  induction h with
  | nil => rfl
  | cons hentry _ ih =>
    unfold Substitution.captures at ih ⊢
    rw [List.any_cons, List.any_cons, hentry.2.occursFree_eq, ih]

theorem freeNames_eq (h : AlikeBindings S bindings bindings') :
    Substitution.freeNames bindings = Substitution.freeNames bindings' := by
  induction h with
  | nil => rfl
  | cons hentry _ ih =>
    unfold Substitution.freeNames at ih ⊢
    rw [List.flatMap_cons, List.flatMap_cons, hentry.2.freeNames_eq, ih]

theorem enter (h : AlikeBindings S bindings bindings') (name : String) {body body' : Core}
    (hbody : body.Alike S body') :
    (Substitution.enter bindings name body).1 = (Substitution.enter bindings' name body').1 ∧
      AlikeBindings S (Substitution.enter bindings name body).2
        (Substitution.enter bindings' name body').2 := by
  have hinner := h.without name
  simp only [Substitution.enter, hinner.captures_eq, hinner.freeNames_eq, hbody.freeNames_eq]
  split
  · exact ⟨rfl, hinner⟩
  · exact ⟨rfl, hinner.insert name (.var _)⟩

end AlikeBindings

mutual

theorem Core.Alike.subst {t t' : Core} : t.Alike S t' → {σ σ' : Substitution} →
    AlikeBindings S σ σ' → (t.subst σ).Alike S (t'.subst σ')
  | h, [], [], _ => by
    rw [Core.subst_nil, Core.subst_nil]
    exact h
  | .univ rank, _ :: _, _ :: _, _ => by
    unfold Core.subst
    exact .univ rank
  | .var name, _ :: _, _ :: _, hσ => by
    unfold Core.subst
    exact hσ.lookup_getD name (.var name)
  | .const h, _ :: _, _ :: _, _ => by
    unfold Core.subst
    exact .const h
  | .quant polarity rank name hdomain hcodomain, _ :: _, _ :: _, hσ => by
    obtain ⟨hname, hinner⟩ := hσ.enter name hcodomain
    unfold Core.subst
    simp only [List.isEmpty_cons, Bool.false_eq_true, if_false, ← hname]
    exact .quant polarity rank _ (hdomain.subst hσ) (hcodomain.subst hinner)
  | .signature htypes, _ :: _, _ :: _, hσ => by
    unfold Core.subst
    exact .signature (htypes.subst hσ)
  | .lam param _ _ hbody, _ :: _, _ :: _, hσ => by
    obtain ⟨hname, hinner⟩ := hσ.enter param hbody
    unfold Core.subst
    simp only [List.isEmpty_cons, Bool.false_eq_true, if_false, ← hname]
    exact .lam _ _ _ (hbody.subst hinner)
  | .record hmembers, _ :: _, _ :: _, hσ => by
    unfold Core.subst
    exact .record (Core.alike_substMembers hmembers hσ)
  | .app rank htype hoperator hoperand, _ :: _, _ :: _, hσ => by
    unfold Core.subst
    exact .app rank (htype.subst hσ) (hoperator.subst hσ) (hoperand.subst hσ)
  | .proj rank index htype hoperator, _ :: _, _ :: _, hσ => by
    unfold Core.subst
    exact .proj rank index (htype.subst hσ) (hoperator.subst hσ)

theorem Telescope.Alike.subst {t t' : Telescope} : t.Alike S t' → {σ σ' : Substitution} →
    AlikeBindings S σ σ' → (t.subst σ).Alike S (t'.subst σ')
  | .nil, _, _, _ => .nil
  | .cons rank name htype hrest, _, _, hσ => by
    unfold Telescope.subst
    exact .cons rank name (htype.subst hσ) (hrest.subst (hσ.without name))

theorem Core.alike_substMembers {ts ts' : List Core} :
    List.Forall₂ (Core.Alike S) ts ts' → {σ σ' : Substitution} → AlikeBindings S σ σ' →
      List.Forall₂ (Core.Alike S) (Core.substMembers σ ts) (Core.substMembers σ' ts')
  | .nil, _, _, _ => .nil
  | .cons hhead htail, _, _, hσ => by
    unfold Core.substMembers
    exact .cons (hhead.subst hσ) (Core.alike_substMembers htail hσ)

end

theorem Core.Alike.subst_single {t t' s s' : Core} (ht : t.Alike S t') (hs : s.Alike S s')
    (name : String) : (t.subst (.single name s)).Alike S (t'.subst (.single name s')) :=
  ht.subst (.cons ⟨rfl, hs⟩ .nil)

/-- Generated names depend on the names that are mapped only. -/
theorem NormEnv.freeIndex_congr {env env' : NormEnv} (h : env.map Prod.fst = env'.map Prod.fst)
    (n k : Nat) : NormEnv.freeIndex env n k = NormEnv.freeIndex env' n k := by
  induction n generalizing k with
  | zero => rfl
  | succ n ih => rw [NormEnv.freeIndex, NormEnv.freeIndex, NormEnv.maps_congr h, ih]

/-- A binder gets the same name under alike environments. -/
theorem AlikeBindings.bind {env env' : NormEnv} (h : AlikeBindings S env env') (name : String)
    (c : Nat) :
    (NormEnv.bind env name c).1.1 = (NormEnv.bind env' name c).1.1 ∧
      AlikeBindings S (NormEnv.bind env name c).1.2 (NormEnv.bind env' name c).1.2 ∧
      (NormEnv.bind env name c).2 = (NormEnv.bind env' name c).2 := by
  simp only [NormEnv.bind, NormEnv.freshName, h.maps_eq, NormEnv.freeIndex_congr h.names_eq,
    h.length_eq]
  split
  · exact ⟨rfl, h.push name (.var name), rfl⟩
  · exact ⟨rfl, (h.push _ (.var _)).push name (.var _), rfl⟩

theorem exists_getElem?_of_forall₂ {α β : Type} {R : α → β → Prop} {xs : List α} {ys : List β}
    (h : List.Forall₂ R xs ys) {i : Nat} {x : α} (hx : xs[i]? = some x) :
    ∃ y, ys[i]? = some y ∧ R x y := by
  induction h generalizing i with
  | nil => simp at hx
  | @cons a b _ _ hhead _ ih =>
    cases i with
    | zero =>
      obtain rfl : a = x := by simpa using hx
      exact ⟨b, rfl, hhead⟩
    | succ i => simpa using ih (by simpa using hx)

open Run

/-- Two runs of the normalizer, with the same counter. -/
def sameCounter : Simulation Nat Nat := ⟨Eq, fun _ ↦ True⟩

theorem sameCounter_total {α : Type} {R : α → α → Prop} :
    ∀ s, ¬ sameCounter.settled s → ∀ x, ∃ y, R x y :=
  fun _ h ↦ absurd trivial h

theorem NormEnv.bind_follows {env env' : NormEnv} (h : AlikeBindings S env env') (name : String) :
    Follows sameCounter (fun _ ↦ True) (fun b b' ↦ b.1 = b'.1 ∧ AlikeBindings S b.2 b'.2)
      (modifyGet (NormEnv.bind env name) : Run Nat BadProjection _)
      (modifyGet (NormEnv.bind env' name) : Run Nat BadProjection _) := by
  refine .modifyGet (fun _ _ ↦ trivial) ?_
  rintro c _ rfl
  obtain ⟨hname, hinner, hc⟩ := h.bind name c
  exact ⟨hc, hname, hinner⟩

theorem Telescope.normalizeWith_follows {f : NormEnv → Core → Run Nat BadProjection Core}
    (hf : ∀ {env env' t t'}, AlikeBindings S env env' → Core.Alike S t t' →
      Follows sameCounter (fun _ ↦ True) (Core.Alike S) (f env t) (f env' t'))
    {types types' : Telescope} {env env' : NormEnv} (htypes : types.Alike S types')
    (henv : AlikeBindings S env env') :
    Follows sameCounter (fun _ ↦ True) (Telescope.Alike S) (types.normalizeWith f env)
      (types'.normalizeWith f env') := by
  cases htypes with
  | nil => exact .pure .nil
  | cons rank name htype hrest =>
    unfold Telescope.normalizeWith
    refine .bind sameCounter_total (hf henv htype) fun type type' htype ↦ ?_
    refine .bind sameCounter_total (Telescope.normalizeWith_follows hf hrest
      (henv.push name (.var name))) fun rest rest' hrest ↦ ?_
    exact .pure (.cons rank name htype hrest)

theorem Core.normalize_follows (fuel : Nat) {env env' : NormEnv} {t t' : Core}
    (henv : AlikeBindings S env env') (ht : t.Alike S t') :
    Follows sameCounter (fun _ ↦ True) (Core.Alike S) (t.normalize fuel env)
      (t'.normalize fuel env') := by
  induction fuel generalizing env env' t t' with
  | zero => exact .outOfFuel
  | succ fuel ih =>
    cases ht with
    | univ rank => exact .pure (.univ rank)
    | const h => exact .pure (.const h)
    | var name => exact .pure (henv.lookup_getD name (.var name))
    | quant polarity rank name hdomain hcodomain =>
      unfold Core.normalize
      refine .bind sameCounter_total (ih henv hdomain) fun domain domain' hdomain ↦ ?_
      refine .bind sameCounter_total (NormEnv.bind_follows henv name) fun b b' hb ↦ ?_
      obtain ⟨hname, hinner⟩ := hb
      refine .bind sameCounter_total (ih hinner hcodomain) fun codomain codomain' hcodomain ↦ ?_
      rw [hname]
      exact .pure (.quant polarity rank _ hdomain hcodomain)
    | signature htypes =>
      unfold Core.normalize
      refine .bind sameCounter_total (Telescope.normalizeWith_follows ih htypes henv)
        fun types types' htypes ↦ ?_
      exact .pure (.signature htypes)
    | lam param stamp stamp' hbody =>
      unfold Core.normalize
      refine .bind sameCounter_total (NormEnv.bind_follows henv param) fun b b' hb ↦ ?_
      obtain ⟨hname, hinner⟩ := hb
      refine .bind sameCounter_total (ih hinner hbody) fun body body' hbody ↦ ?_
      rw [hname]
      exact .pure (.lam _ _ _ hbody)
    | record hmembers =>
      unfold Core.normalize
      refine .bind sameCounter_total (.mapM sameCounter_total (fun _ _ ↦ ih henv) hmembers)
        fun members members' hmembers ↦ ?_
      exact .pure (.record hmembers)
    | @app rank type type' _ _ _ _ htype hoperator hoperand =>
      unfold Core.normalize
      refine .bind sameCounter_total (ih henv hoperator) fun operator operator' hoperator ↦ ?_
      refine .bind sameCounter_total (ih henv hoperand) fun operand operand' hoperand ↦ ?_
      have hstuck : Follows sameCounter (fun _ ↦ True) (Core.Alike S)
          (do return .app rank (← type.normalize fuel env) operator operand)
          (do return .app rank (← type'.normalize fuel env') operator' operand') := by
        refine .bind sameCounter_total (ih henv htype) fun type type' htype ↦ ?_
        exact .pure (.app rank htype hoperator hoperand)
      cases hoperator with
      | lam param stamp stamp' hbody => exact ih .nil (hbody.subst_single hoperand param)
      | _ => exact hstuck
    | @proj rank index type type' _ _ htype hoperator =>
      unfold Core.normalize
      refine .bind sameCounter_total (ih henv hoperator) fun operator operator' hoperator ↦ ?_
      have hstuck : Follows sameCounter (fun _ ↦ True) (Core.Alike S)
          (do return .proj rank (← type.normalize fuel env) operator index)
          (do return .proj rank (← type'.normalize fuel env') operator' index) := by
        refine .bind sameCounter_total (ih henv htype) fun type type' htype ↦ ?_
        exact .pure (.proj rank index htype hoperator)
      cases hoperator with
      | record hmembers =>
        dsimp only
        rename_i members members'
        cases hmember : members[index]? with
        | none => exact .fail trivial
        | some member =>
          obtain ⟨member', hmember', halike⟩ := exists_getElem?_of_forall₂ hmembers hmember
          rw [hmember']
          exact .pure halike
      | _ => exact hstuck

theorem Core.Alike.normalForm {fuel : Nat} {env env' : NormEnv} {t t' n : Core}
    (ht : t.Alike S t') (henv : AlikeBindings S env env') (h : t.normalForm fuel env = .ok n) :
    ∃ n', t'.normalForm fuel env' = .ok n' ∧ n.Alike S n' := by
  obtain ⟨c, hc⟩ := outcome_eq_ok_iff.mp h
  obtain ⟨n', c', hc', -, hn⟩ := (Core.normalize_follows fuel henv ht).returns hc trivial _ rfl
  exact ⟨n', outcome_eq_ok_iff.mpr ⟨c', hc'⟩, hn⟩

end Alike

end RankedTT
