/-!
Results kept by name. An entry may be marked stale; it then still holds its result, until a new one
is put in its place.
-/

set_option autoImplicit false
set_option relaxedAutoImplicit false

namespace RankedTT

structure CacheEntry (α : Type) where
  value : α
  stale : Bool

abbrev Cache (α : Type) := List (String × CacheEntry α)

namespace Cache

variable {α : Type}

def empty : Cache α := []

def find? (cache : Cache α) (name : String) : Option (CacheEntry α) := List.lookup name cache

/-- The result under a name, stale or not. -/
def getEvenIfStale? (cache : Cache α) (name : String) : Option α :=
  (find? cache name).map CacheEntry.value

/-- A name without an entry counts as stale. -/
def isStale (cache : Cache α) (name : String) : Bool :=
  match find? cache name with
  | some entry => entry.stale
  | none => true

def getUnlessStale? (cache : Cache α) (name : String) : Option α :=
  if isStale cache name then none else getEvenIfStale? cache name

def insert (cache : Cache α) (name : String) (value : α) : Cache α :=
  (name, ⟨value, false⟩) :: List.filter (fun entry ↦ entry.1 != name) cache

def invalidate (cache : Cache α) (name : String) : Cache α :=
  List.map (fun entry ↦ if entry.1 == name then (name, { entry.2 with stale := true }) else entry)
    cache

/-- The names with an entry, in the order of their characters. -/
def keys (cache : Cache α) : List String :=
  (List.map Prod.fst cache).mergeSort (· ≤ ·)

end Cache

end RankedTT
