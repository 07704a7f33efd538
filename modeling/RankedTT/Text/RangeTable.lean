/-!
Sets of characters given by ranges of code points, both ends included.
-/

set_option autoImplicit false
set_option relaxedAutoImplicit false

namespace RankedTT.Text

abbrev RangeTable := List (Nat × Nat)

def RangeTable.contains (table : RangeTable) (c : Char) : Bool :=
  List.any table fun range ↦ range.1 ≤ c.toNat && c.toNat ≤ range.2

end RankedTT.Text
