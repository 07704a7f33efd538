/-!
The imports of every module. The modules to reload after a change are those from which the changed
module can be reached by following imports.
-/

set_option autoImplicit false
set_option relaxedAutoImplicit false

namespace RankedTT

/-- The modules that import something, each with its imports in the order of their first request. -/
abbrev ImportGraph := List (String × List String)

namespace ImportGraph

def empty : ImportGraph := []

def imports? (graph : ImportGraph) (module : String) : Option (List String) :=
  List.lookup module graph

/-- Forget the imports of a module. -/
def erase (graph : ImportGraph) (module : String) : ImportGraph :=
  List.filter (fun entry ↦ entry.1 != module) graph

/-- Record that `module` imports `target`. -/
def add (graph : ImportGraph) (module target : String) : ImportGraph :=
  match imports? graph module with
  | none => (module, [target]) :: graph
  | some targets =>
    if targets.contains target then graph
    else (module, targets ++ [target]) :: erase graph module

/-- The modules outside `reached` that import one of `reached`. -/
def importersOf (graph : ImportGraph) (reached : List String) : List String :=
  (List.filter (fun entry ↦ !reached.contains entry.1 && entry.2.any reached.contains) graph).map
    Prod.fst

def reachBack (graph : ImportGraph) : Nat → List String → List String
  | 0, reached => reached
  | n + 1, reached => reachBack graph n (reached ++ importersOf graph reached)

/-- A module and all modules that import it, directly or through others. Each round that finds
anything finds a module of the graph, so as many rounds as the graph has modules are enough. -/
def reverseDependencies (graph : ImportGraph) (module : String) : List String :=
  reachBack graph graph.length [module]

end ImportGraph

end RankedTT
