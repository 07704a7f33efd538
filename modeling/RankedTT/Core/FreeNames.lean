import RankedTT.Core.Basic

/-!
Free names of core terms. The domain of a quantifier lies outside its binder, each member of a
record type binds its name in the members after it, and the types recorded on operators count as
part of a term. Constants have no free names.
-/

set_option autoImplicit false
set_option relaxedAutoImplicit false

namespace RankedTT

mutual

def Core.occursFree (x : String) : Core → Bool
  | .univ _ => false
  | .quant _ _ domain name codomain =>
    domain.occursFree x || (name != x && codomain.occursFree x)
  | .signature members => members.occursFree x
  | .lam param _ body => param != x && body.occursFree x
  | .record members => Core.occursFreeMembers x members
  | .app _ type operator operand =>
    type.occursFree x || operator.occursFree x || operand.occursFree x
  | .proj _ type operator _ => type.occursFree x || operator.occursFree x
  | .var name => name == x
  | .const _ => false

def Telescope.occursFree (x : String) : Telescope → Bool
  | .nil => false
  | .cons _ type name rest => type.occursFree x || (name != x && rest.occursFree x)

def Core.occursFreeMembers (x : String) : List Core → Bool
  | [] => false
  | m :: ms => m.occursFree x || Core.occursFreeMembers x ms

end

mutual

/-- Every free name of a term, with repetitions. -/
def Core.freeNames : Core → List String
  | .univ _ => []
  | .quant _ _ domain name codomain => domain.freeNames ++ codomain.freeNames.filter (· != name)
  | .signature members => members.freeNames
  | .lam param _ body => body.freeNames.filter (· != param)
  | .record members => Core.freeNamesMembers members
  | .app _ type operator operand => type.freeNames ++ operator.freeNames ++ operand.freeNames
  | .proj _ type operator _ => type.freeNames ++ operator.freeNames
  | .var name => [name]
  | .const _ => []

def Telescope.freeNames : Telescope → List String
  | .nil => []
  | .cons _ type name rest => type.freeNames ++ rest.freeNames.filter (· != name)

def Core.freeNamesMembers : List Core → List String
  | [] => []
  | m :: ms => m.freeNames ++ Core.freeNamesMembers ms

end

mutual

/-- A name occurs free exactly if it is listed. -/
theorem Core.occursFree_iff_mem (x : String) :
    (t : Core) → (t.occursFree x = true ↔ x ∈ t.freeNames)
  | .univ _ => by simp [Core.occursFree, Core.freeNames]
  | .quant _ _ domain name codomain => by
    have hd := Core.occursFree_iff_mem x domain
    have hc := Core.occursFree_iff_mem x codomain
    simp [Core.occursFree, Core.freeNames, hd, hc, and_comm, ne_comm]
  | .signature members => by
    simpa [Core.occursFree, Core.freeNames] using Telescope.occursFree_iff_mem x members
  | .lam param _ body => by
    have hb := Core.occursFree_iff_mem x body
    simp [Core.occursFree, Core.freeNames, hb, and_comm, ne_comm]
  | .record members => by
    simpa [Core.occursFree, Core.freeNames] using Core.occursFreeMembers_iff_mem x members
  | .app _ type operator operand => by
    have ht := Core.occursFree_iff_mem x type
    have ho := Core.occursFree_iff_mem x operator
    have ha := Core.occursFree_iff_mem x operand
    simp [Core.occursFree, Core.freeNames, ht, ho, ha, or_assoc]
  | .proj _ type operator _ => by
    have ht := Core.occursFree_iff_mem x type
    have ho := Core.occursFree_iff_mem x operator
    simp [Core.occursFree, Core.freeNames, ht, ho]
  | .var name => by
    simpa [Core.occursFree, Core.freeNames] using eq_comm
  | .const _ => by simp [Core.occursFree, Core.freeNames]

theorem Telescope.occursFree_iff_mem (x : String) :
    (t : Telescope) → (t.occursFree x = true ↔ x ∈ t.freeNames)
  | .nil => by simp [Telescope.occursFree, Telescope.freeNames]
  | .cons _ type name rest => by
    have ht := Core.occursFree_iff_mem x type
    have hr := Telescope.occursFree_iff_mem x rest
    simp [Telescope.occursFree, Telescope.freeNames, ht, hr, and_comm, ne_comm]

theorem Core.occursFreeMembers_iff_mem (x : String) :
    (ts : List Core) → (Core.occursFreeMembers x ts = true ↔ x ∈ Core.freeNamesMembers ts)
  | [] => by simp [Core.occursFreeMembers, Core.freeNamesMembers]
  | m :: ms => by
    have hm := Core.occursFree_iff_mem x m
    have hms := Core.occursFreeMembers_iff_mem x ms
    simp [Core.occursFreeMembers, Core.freeNamesMembers, hm, hms]

end

end RankedTT
