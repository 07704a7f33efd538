import RankedTT.Term.Basic

/-!
Sources of modules. A source is a stack of layers, and a layer holds programs by name. Reading finds
the first layer that has the name; writing replaces the program there, or adds it to the first layer
if no layer has the name; forgetting removes it from the first layer that has it. A source without
layers stands for a single empty one.
-/

set_option autoImplicit false
set_option relaxedAutoImplicit false

namespace RankedTT

abbrev Layer := List (String × Term)

namespace Layer

def has (layer : Layer) (name : String) : Bool := (List.lookup name layer).isSome

def erase (layer : Layer) (name : String) : Layer := List.filter (fun entry ↦ entry.1 != name) layer

def insert (layer : Layer) (name : String) (program : Term) : Layer :=
  (name, program) :: erase layer name

/-- The entries in turn, a later one in place of an earlier one of the same name. -/
def ofEntries (entries : List (String × Term)) : Layer :=
  entries.foldl (fun layer entry ↦ insert layer entry.1 entry.2) []

end Layer

abbrev Source := List Layer

namespace Source

def read? (source : Source) (name : String) : Option Term :=
  List.findSome? (fun layer ↦ List.lookup name layer) source

def has (source : Source) (name : String) : Bool := List.any source fun layer ↦ Layer.has layer name

/-- Put a program in place of the one that is read under its name, if there is one. -/
def replace (name : String) (program : Term) : Source → Source
  | [] => []
  | layer :: below =>
    if Layer.has layer name then Layer.insert layer name program :: below
    else layer :: replace name program below

def write (source : Source) (name : String) (program : Term) : Source :=
  if has source name then replace name program source
  else match source with
    | [] => [Layer.insert [] name program]
    | layer :: below => Layer.insert layer name program :: below

/-- Remove the program that is read under a name. -/
def forget (name : String) : Source → Source
  | [] => []
  | layer :: below =>
    if Layer.has layer name then Layer.erase layer name :: below
    else layer :: forget name below

/-- The number of stored programs. -/
def size (source : Source) : Nat := source.flatten.length

end Source

end RankedTT
