import RankedTT.Core.FreeNames

/-!
Simultaneous substitution of core terms for names. A quantifier or a lambda whose name is free in a
substituted term is renamed by adding primes until the name is free neither in the substituted terms
nor in the body. The names of record members are labels and are never renamed, and the anonymous
binder is never renamed either. Domains lie outside their binder; each member of a record type ends
the substitution of its own name for the members after it.

A lambda that is rebuilt by a substitution is a new function body and loses its stamp; substituting
nothing leaves a term as it is, stamps included.
-/

set_option autoImplicit false
set_option relaxedAutoImplicit false

namespace RankedTT

/-- Add a prime to `name` while it is taken, at most `n` times. -/
def addPrimes (taken : List String) : Nat → String → String
  | 0, name => name
  | n + 1, name => if taken.contains name then addPrimes taken n (name ++ "'") else name

/-- The name with the fewest trailing primes, but at least one, that is not taken. One of the first
`taken.length + 1` candidates is free, so the search has enough rounds. -/
def freshPrimed (taken : List String) (name : String) : String :=
  addPrimes taken taken.length (name ++ "'")

abbrev Substitution := List (String × Core)

namespace Substitution

def single (name : String) (term : Core) : Substitution := [(name, term)]

def without (σ : Substitution) (name : String) : Substitution :=
  List.filter (fun entry ↦ entry.1 != name) σ

/-- Add a binding in place of any earlier binding of the same name. -/
def insert (σ : Substitution) (name : String) (term : Core) : Substitution :=
  without σ name ++ [(name, term)]

def get? (σ : Substitution) (name : String) : Option Core := List.lookup name σ

/-- Whether `name` is free in one of the substituted terms. -/
def captures (σ : Substitution) (name : String) : Bool :=
  List.any σ (fun entry ↦ entry.2.occursFree name)

def freeNames (σ : Substitution) : List String :=
  List.flatMap (fun entry ↦ entry.2.freeNames) σ

/-- Move a substitution into the scope of a binder: the name that the binder gets, and the
substitution for its body. -/
def enter (σ : Substitution) (name : String) (body : Core) : String × Substitution :=
  let inner := without σ name
  if name == anonymous || !captures inner name then (name, inner)
  else
    let fresh := freshPrimed (freeNames inner ++ body.freeNames) name
    (fresh, insert inner name (.var fresh))

end Substitution

mutual

def Core.subst (σ : Substitution) (t : Core) : Core :=
  if σ.isEmpty then t else
  match t with
  | .univ rank => .univ rank
  | .quant polarity rank domain name codomain =>
    let binder := Substitution.enter σ name codomain
    .quant polarity rank (domain.subst σ) binder.1 (codomain.subst binder.2)
  | .signature members => .signature (members.subst σ)
  | .lam param _ body =>
    let binder := Substitution.enter σ param body
    .lam binder.1 none (body.subst binder.2)
  | .record members => .record (Core.substMembers σ members)
  | .app rank type operator operand =>
    .app rank (type.subst σ) (operator.subst σ) (operand.subst σ)
  | .proj rank type operator index => .proj rank (type.subst σ) (operator.subst σ) index
  | .var name => (Substitution.get? σ name).getD (.var name)
  | .const value => .const value

def Telescope.subst (σ : Substitution) (members : Telescope) : Telescope :=
  match members with
  | .nil => .nil
  | .cons rank type name rest =>
    .cons rank (type.subst σ) name (rest.subst (Substitution.without σ name))

def Core.substMembers (σ : Substitution) (members : List Core) : List Core :=
  match members with
  | [] => []
  | m :: ms => m.subst σ :: Core.substMembers σ ms

end

end RankedTT
