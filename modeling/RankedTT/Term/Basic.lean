import RankedTT.Core.Basic

/-!
Surface terms, as a parser or a host produces them. They are not known to be well typed: a member
access may lack its operator, and a generic parameter may stand outside any quantifier.
-/

set_option autoImplicit false
set_option relaxedAutoImplicit false

namespace RankedTT

mutual

inductive Term where
  | univ (rank : Nat)
  | var (name : String)
  /-- `\x. e` -/
  | lam (param : String) (body : Term)
  /-- `\(x : A). e` -/
  | typedLam (param : String) (type : Term) (body : Term)
  | app (operator : Term) (argument : Term)
  /-- `(x : A) -> B`, `(x : A) & B` and their variants without a name, without a bound, or with a
  type class as bound -/
  | quant (polarity : Polarity) (bound : Bound) (name : Option String) (body : Term)
  /-- `struct { a : A; b : B }` -/
  | signature (members : Fields)
  /-- `new { a = e; b = e }` -/
  | record (members : Fields)
  | access (operator : Term) (name : String)
  /-- `.name` with nothing in front of it -/
  | danglingAccess (name : String)
  /-- `(x : A)` or `(x <: C)` outside a quantifier -/
  | generic (name : String) (bound : Bound)
  /-- `(e : A)` -/
  | anno (type : Term) (term : Term)
  | letIn (name : String) (definition : Term) (body : Term)
  /-- a value of the host together with its classification -/
  | const (content : Classified Value)
  | typeOf (term : Term)
  | importing (filename : String)

/-- The bound of a quantified name: none, for which the name ranges over the types of values; a
type; or a type class, for which the name ranges over the domain of the class and comes with an
instance. -/
inductive Bound where
  | unbounded
  | type (type : Term)
  | typeClass (cls : Term)

/-- Named terms in order: the declarations of a record type or the definitions of a record. -/
inductive Fields where
  | nil
  | cons (name : String) (term : Term) (rest : Fields)

end

instance : Inhabited Term := ⟨.univ 0⟩
instance : Inhabited Bound := ⟨.unbounded⟩
instance : Inhabited Fields := ⟨.nil⟩

namespace Fields

def toList : Fields → List (String × Term)
  | nil => []
  | cons name term rest => (name, term) :: rest.toList

def ofList (fields : List (String × Term)) : Fields :=
  fields.foldr (fun field rest ↦ cons field.1 field.2 rest) nil

def length : Fields → Nat
  | nil => 0
  | cons _ _ rest => rest.length + 1

end Fields

namespace Term

/-- `f a b c` -/
def applyAll (operator : Term) (arguments : List Term) : Term := arguments.foldl app operator

/-- `A -> B` -/
def arrow (domain codomain : Term) : Term := quant .universal (.type domain) none codomain

end Term

end RankedTT
