import Mathlib.Tactic.Tauto
import RankedTT.Core.Stamp
import RankedTT.Core.Subst

/-!
The names in a core term, each with the role that it plays: the name of a variable, of a binder, or
of a record member. Stamps play no part in any of them, so a term keeps its names when its function
bodies are given stamps. The names inside a constant belong to the value and are not counted.
-/

set_option autoImplicit false
set_option relaxedAutoImplicit false

namespace RankedTT

inductive NameRole where
  | reference
  | binder
  | label
deriving DecidableEq, Repr

mutual

/-- Every name in a term, with repetitions. -/
def Core.names : Core → List (NameRole × String)
  | .univ _ => []
  | .quant _ _ domain name codomain => domain.names ++ (.binder, name) :: codomain.names
  | .signature members => members.names
  | .lam param _ body => (.binder, param) :: body.names
  | .record members => Core.namesMembers members
  | .app _ type operator operand => type.names ++ operator.names ++ operand.names
  | .proj _ type operator _ => type.names ++ operator.names
  | .var name => [(.reference, name)]
  | .const _ => []

def Telescope.names : Telescope → List (NameRole × String)
  | .nil => []
  | .cons _ type name rest => type.names ++ (.label, name) :: rest.names

def Core.namesMembers : List Core → List (NameRole × String)
  | [] => []
  | m :: ms => m.names ++ Core.namesMembers ms

end

mutual

theorem Core.mem_names_of_mem_freeNames {x : String} :
    (t : Core) → x ∈ t.freeNames → (.reference, x) ∈ t.names
  | .univ _, h => by simp [Core.freeNames] at h
  | .quant _ _ domain _ codomain, h => by
    have hd := domain.mem_names_of_mem_freeNames (x := x)
    have hc := codomain.mem_names_of_mem_freeNames (x := x)
    simp only [Core.freeNames, List.mem_append, List.mem_filter] at h
    simp only [Core.names, List.mem_append, List.mem_cons]
    tauto
  | .signature members, h => members.mem_names_of_mem_freeNames h
  | .lam _ _ body, h => by
    have hb := body.mem_names_of_mem_freeNames (x := x)
    simp only [Core.freeNames, List.mem_filter] at h
    simp only [Core.names, List.mem_cons]
    tauto
  | .record members, h => Core.mem_namesMembers_of_mem_freeNamesMembers members h
  | .app _ type operator operand, h => by
    have ht := type.mem_names_of_mem_freeNames (x := x)
    have ho := operator.mem_names_of_mem_freeNames (x := x)
    have ha := operand.mem_names_of_mem_freeNames (x := x)
    simp only [Core.freeNames, List.mem_append] at h
    simp only [Core.names, List.mem_append]
    tauto
  | .proj _ type operator _, h => by
    have ht := type.mem_names_of_mem_freeNames (x := x)
    have ho := operator.mem_names_of_mem_freeNames (x := x)
    simp only [Core.freeNames, List.mem_append] at h
    simp only [Core.names, List.mem_append]
    tauto
  | .var name, h => by simpa [Core.freeNames, Core.names] using h
  | .const _, h => by simp [Core.freeNames] at h

theorem Telescope.mem_names_of_mem_freeNames {x : String} :
    (t : Telescope) → x ∈ t.freeNames → (.reference, x) ∈ t.names
  | .nil, h => by simp [Telescope.freeNames] at h
  | .cons _ type _ rest, h => by
    have ht := type.mem_names_of_mem_freeNames (x := x)
    have hr := rest.mem_names_of_mem_freeNames (x := x)
    simp only [Telescope.freeNames, List.mem_append, List.mem_filter] at h
    simp only [Telescope.names, List.mem_append, List.mem_cons]
    tauto

theorem Core.mem_namesMembers_of_mem_freeNamesMembers {x : String} :
    (ts : List Core) → x ∈ Core.freeNamesMembers ts → (.reference, x) ∈ Core.namesMembers ts
  | [], h => by simp [Core.freeNamesMembers] at h
  | m :: ms, h => by
    have hm := m.mem_names_of_mem_freeNames (x := x)
    have hms := Core.mem_namesMembers_of_mem_freeNamesMembers ms (x := x)
    simp only [Core.freeNamesMembers, List.mem_append] at h
    simp only [Core.namesMembers, List.mem_append]
    tauto

end

/-! ### Terms without stamps -/

mutual

/-- A term with the stamps of its function bodies removed. -/
def Core.unstamped : Core → Core
  | .univ rank => .univ rank
  | .quant polarity rank domain name codomain =>
    .quant polarity rank domain.unstamped name codomain.unstamped
  | .signature members => .signature members.unstamped
  | .lam param _ body => .lam param none body.unstamped
  | .record members => .record (Core.unstampedMembers members)
  | .app rank type operator operand =>
    .app rank type.unstamped operator.unstamped operand.unstamped
  | .proj rank type operator index => .proj rank type.unstamped operator.unstamped index
  | .var name => .var name
  | .const value => .const value

def Telescope.unstamped : Telescope → Telescope
  | .nil => .nil
  | .cons rank type name rest => .cons rank type.unstamped name rest.unstamped

def Core.unstampedMembers : List Core → List Core
  | [] => []
  | m :: ms => m.unstamped :: Core.unstampedMembers ms

end

mutual

/-- Giving stamps to a term changes nothing else. -/
theorem Core.unstamped_assignStamps :
    (t : Core) → (next : Nat) → (t.assignStamps next).1.unstamped = t.unstamped
  | .univ _, _ | .var _, _ | .const _, _ => rfl
  | .quant _ _ domain _ codomain, next => by
    rw [Core.unstamped, ← domain.unstamped_assignStamps next,
      ← codomain.unstamped_assignStamps (domain.assignStamps next).2]
    rfl
  | .signature members, next => by
    rw [Core.unstamped, ← members.unstamped_assignStamps next]
    rfl
  | .lam _ none body, next => by
    rw [Core.unstamped, ← body.unstamped_assignStamps (next + 1)]
    rfl
  | .lam _ (some _) body, next => by
    rw [Core.unstamped, ← body.unstamped_assignStamps next]
    rfl
  | .record members, next => by
    rw [Core.unstamped, ← Core.unstampedMembers_assignStampsMembers members next]
    rfl
  | .app _ type operator operand, next => by
    rw [Core.unstamped, ← type.unstamped_assignStamps next,
      ← operator.unstamped_assignStamps (type.assignStamps next).2,
      ← operand.unstamped_assignStamps (operator.assignStamps (type.assignStamps next).2).2]
    rfl
  | .proj _ type operator _, next => by
    rw [Core.unstamped, ← type.unstamped_assignStamps next,
      ← operator.unstamped_assignStamps (type.assignStamps next).2]
    rfl

theorem Telescope.unstamped_assignStamps :
    (t : Telescope) → (next : Nat) → (t.assignStamps next).1.unstamped = t.unstamped
  | .nil, _ => rfl
  | .cons _ type _ rest, next => by
    rw [Telescope.unstamped, ← type.unstamped_assignStamps next,
      ← rest.unstamped_assignStamps (type.assignStamps next).2]
    rfl

theorem Core.unstampedMembers_assignStampsMembers :
    (ts : List Core) → (next : Nat) →
      Core.unstampedMembers (Core.assignStampsMembers ts next).1 = Core.unstampedMembers ts
  | [], _ => rfl
  | m :: ms, next => by
    rw [Core.unstampedMembers, ← m.unstamped_assignStamps next,
      ← Core.unstampedMembers_assignStampsMembers ms (m.assignStamps next).2]
    rfl

end

mutual

@[simp]
theorem Core.names_unstamped : (t : Core) → t.unstamped.names = t.names
  | .univ _ | .var _ | .const _ => rfl
  | .quant _ _ domain _ codomain => by
    simp [Core.unstamped, Core.names, domain.names_unstamped, codomain.names_unstamped]
  | .signature members => members.names_unstamped
  | .lam _ _ body => by simp [Core.unstamped, Core.names, body.names_unstamped]
  | .record members => Core.namesMembers_unstampedMembers members
  | .app _ type operator operand => by
    simp [Core.unstamped, Core.names, type.names_unstamped, operator.names_unstamped,
      operand.names_unstamped]
  | .proj _ type operator _ => by
    simp [Core.unstamped, Core.names, type.names_unstamped, operator.names_unstamped]

@[simp]
theorem Telescope.names_unstamped : (t : Telescope) → t.unstamped.names = t.names
  | .nil => rfl
  | .cons _ type _ rest => by
    simp [Telescope.unstamped, Telescope.names, type.names_unstamped, rest.names_unstamped]

@[simp]
theorem Core.namesMembers_unstampedMembers :
    (ts : List Core) → Core.namesMembers (Core.unstampedMembers ts) = Core.namesMembers ts
  | [] => rfl
  | m :: ms => by
    simp [Core.unstampedMembers, Core.namesMembers, m.names_unstamped,
      Core.namesMembers_unstampedMembers ms]

end

mutual

@[simp]
theorem Core.freeNames_unstamped : (t : Core) → t.unstamped.freeNames = t.freeNames
  | .univ _ | .var _ | .const _ => rfl
  | .quant _ _ domain _ codomain => by
    simp [Core.unstamped, Core.freeNames, domain.freeNames_unstamped,
      codomain.freeNames_unstamped]
  | .signature members => members.freeNames_unstamped
  | .lam _ _ body => by simp [Core.unstamped, Core.freeNames, body.freeNames_unstamped]
  | .record members => Core.freeNamesMembers_unstampedMembers members
  | .app _ type operator operand => by
    simp [Core.unstamped, Core.freeNames, type.freeNames_unstamped, operator.freeNames_unstamped,
      operand.freeNames_unstamped]
  | .proj _ type operator _ => by
    simp [Core.unstamped, Core.freeNames, type.freeNames_unstamped, operator.freeNames_unstamped]

@[simp]
theorem Telescope.freeNames_unstamped : (t : Telescope) → t.unstamped.freeNames = t.freeNames
  | .nil => rfl
  | .cons _ type _ rest => by
    simp [Telescope.unstamped, Telescope.freeNames, type.freeNames_unstamped,
      rest.freeNames_unstamped]

@[simp]
theorem Core.freeNamesMembers_unstampedMembers :
    (ts : List Core) → Core.freeNamesMembers (Core.unstampedMembers ts) = Core.freeNamesMembers ts
  | [] => rfl
  | m :: ms => by
    simp [Core.unstampedMembers, Core.freeNamesMembers, m.freeNames_unstamped,
      Core.freeNamesMembers_unstampedMembers ms]

end

@[simp]
theorem Core.names_assignStamps (t : Core) (next : Nat) :
    (t.assignStamps next).1.names = t.names := by
  rw [← Core.names_unstamped, t.unstamped_assignStamps, Core.names_unstamped]

@[simp]
theorem Core.freeNames_assignStamps (t : Core) (next : Nat) :
    (t.assignStamps next).1.freeNames = t.freeNames := by
  rw [← Core.freeNames_unstamped, t.unstamped_assignStamps, Core.freeNames_unstamped]

end RankedTT
