import RankedTT.Typing.Check

/-!
Hosts without a state of their own: one that knows no imports, and one that knows a fixed list of
them.
-/

set_option autoImplicit false
set_option relaxedAutoImplicit false

namespace RankedTT

/-- Why such a host cannot resolve an import. -/
inductive Unresolved where
  | unavailable (filename : String)
  | noSuchFile

def Unresolved.message : Unresolved → String
  | unavailable filename => "imports are not available, cannot load " ++ filename
  | noSuchFile => "no such file"

namespace Host

/-- For programs that do not import anything. -/
def withoutImports (fuel : Nat) : Host Unit Unresolved where
  fuel := fuel
  resolve filename := Run.fail (.unavailable filename)

/-- For programs that import from a list; the first entry of a name counts. -/
def withImports (fuel : Nat) (imports : List (String × Classified Value)) :
    Host Unit Unresolved where
  fuel := fuel
  resolve filename := Run.ofOption .noSuchFile (imports.lookup filename)

end Host

end RankedTT
