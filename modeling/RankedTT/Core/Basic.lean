/-!
The core calculus. Core terms are fully annotated: an application and a projection record the rank
and the type of their operator, a quantifier and a record type record the rank of each bound type,
and a projection names its member by position. Values are what evaluation produces; a constant
embeds a value in a term.

Two function values are the same only if they come from the same function body. A `Stamp` names a
function body: every core lambda carries the stamp of its body, copies of the lambda keep it, and a
closure takes it over. A lambda that was just rebuilt has no stamp until it is given a new one.
-/

set_option autoImplicit false
set_option relaxedAutoImplicit false

namespace RankedTT

/-- Dependent functions are universal, dependent pairs existential. -/
inductive Polarity where
  | universal
  | existential
deriving DecidableEq, Repr, Inhabited

/-- The name bound by non-dependent quantifiers. -/
def anonymous : String := "*"

/-- The identity of a function body, absent while the body is newly built. -/
abbrev Stamp := Option Nat

/-- The curried binary operations on integers and strings. -/
inductive BinaryOp where
  | plus
  | minus
  | times
  | concat
deriving DecidableEq, Repr, Inhabited

mutual

/-- Core terms. `quant` and `lam` bind their name in the last field; the member `i` of a signature
is bound in the types of the members after it. -/
inductive Core where
  | univ (rank : Nat)
  | quant (polarity : Polarity) (rank : Nat) (domain : Core) (name : String) (codomain : Core)
  | signature (members : Telescope)
  | lam (param : String) (stamp : Stamp) (body : Core)
  | record (members : List Core)
  | app (rank : Nat) (type : Core) (operator : Core) (operand : Core)
  | proj (rank : Nat) (type : Core) (operator : Core) (index : Nat)
  | var (name : String)
  | const (value : Value)

/-- The members of a record type in order. The type of a member may mention the members before
it. -/
inductive Telescope where
  | nil
  | cons (rank : Nat) (type : Core) (name : String) (rest : Telescope)

/-- Run-time values. Types and universes have no run-time form and evaluate to `absent`. -/
inductive Value where
  | absent
  | int (n : Int)
  | str (s : String)
  | record (members : List Value)
  | closure (env : List (String × Value)) (param : String) (stamp : Stamp) (body : Core)
  | host (function : HostFn)

/-- Functions provided by the host: a curried binary operation, such an operation applied to its
first operand, the identity, a function that always fails, and the half of an even number. -/
inductive HostFn where
  | binary (op : BinaryOp)
  | applied (op : BinaryOp) (lhs : Value) (stamp : Nat)
  | identity
  | failing
  | halving

end

instance : Inhabited Core := ⟨.univ 0⟩
instance : Inhabited Telescope := ⟨.nil⟩
instance : Inhabited Value := ⟨.absent⟩
instance : Inhabited HostFn := ⟨.identity⟩

/-- The judgement that `term` has the type `type`, which itself lives in the universe of rank
`rank`. The payload is a core term, a value, or the name bound by a declaration. -/
structure Classified (α : Type) where
  rank : Nat
  type : Core
  term : α
deriving Inhabited

namespace Telescope

def toList : Telescope → List (Classified String)
  | nil => []
  | cons rank type name rest => ⟨rank, type, name⟩ :: rest.toList

def ofList (members : List (Classified String)) : Telescope :=
  members.foldr (fun member rest ↦ cons member.rank member.type member.term rest) nil

def length : Telescope → Nat
  | nil => 0
  | cons _ _ _ rest => rest.length + 1

/-- The position of the first member called `name`. -/
def position? (name : String) : Telescope → Option Nat
  | nil => none
  | cons _ _ label rest => if label = name then some 0 else (rest.position? name).map (· + 1)

end Telescope

namespace Core

/-- `(x : A) -> B` or `(x : A) & B` from the declaration of `x`. -/
def quantify (polarity : Polarity) (binder : Classified String) (codomain : Core) : Core :=
  .quant polarity binder.rank binder.type binder.term codomain

def apply (operator : Classified Core) (operand : Core) : Core :=
  .app operator.rank operator.type operator.term operand

def project (operator : Classified Core) (index : Nat) : Core :=
  .proj operator.rank operator.type operator.term index

/-- The polarity, the bound declaration and the codomain of a quantifier. -/
def asQuantifier? : Core → Option (Polarity × Classified String × Core)
  | .quant polarity rank domain name codomain => some (polarity, ⟨rank, domain, name⟩, codomain)
  | _ => none

def asSignature? : Core → Option Telescope
  | .signature members => some members
  | _ => none

end Core

namespace Classified

variable {α β : Type}

def map (f : α → β) (judgement : Classified α) : Classified β :=
  ⟨judgement.rank, judgement.type, f judgement.term⟩

/-- The same rank and type for another term. -/
def withTerm (judgement : Classified α) (term : β) : Classified β :=
  ⟨judgement.rank, judgement.type, term⟩

/-- The judgement about the type of a judgement: it lives one rank higher and is classified by the
universe of the recorded rank. -/
def typeOf (judgement : Classified α) : Classified Core :=
  ⟨judgement.rank + 1, .univ judgement.rank, judgement.type⟩

/-- The universe of rank `n` is classified by that of rank `n + 1`, which lives at rank `n + 2`. -/
def ofUniverse (rank : Nat) : Classified Core := ⟨rank + 2, .univ (rank + 1), .univ rank⟩

/-- The judgement about the universe of value types. -/
def baseType : Classified Core := ofUniverse 0

/-- From a judgement about a type to a judgement about an inhabitant of that type: the inverse of
`typeOf`, absent if the judgement is not about a type. -/
def inhabitant? (judgement : Classified Core) (term : α) : Option (Classified α) :=
  match judgement.type with
  | .univ rank => some ⟨rank, judgement.term, term⟩
  | _ => none

/-- Declare a name that ranges over the type that the judgement is about. -/
def declare? (judgement : Classified Core) (name : String) : Option (Classified String) :=
  judgement.inhabitant? name

/-- The declared name as a term. -/
def asVariable (declaration : Classified String) : Classified Core :=
  declaration.withTerm (.var declaration.term)

/-- The rank of the universe that the judgement is about. -/
def asUniverse? (judgement : Classified Core) : Option Nat :=
  match judgement.term with
  | .univ rank => some rank
  | _ => none

theorem inhabitant?_typeOf (judgement : Classified α) (term : β) :
    judgement.typeOf.inhabitant? term = some (judgement.withTerm term) := rfl

theorem inhabitant?_eq_some_iff {judgement : Classified Core} {term : α} {found : Classified α} :
    judgement.inhabitant? term = some found ↔
      ∃ rank, judgement.type = .univ rank ∧ found = ⟨rank, judgement.term, term⟩ := by
  obtain ⟨rank, type, t⟩ := judgement
  cases type with
  | univ n => simp [inhabitant?, eq_comm]
  | _ => simp [inhabitant?]

end Classified

end RankedTT
