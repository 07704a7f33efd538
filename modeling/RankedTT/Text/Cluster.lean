import RankedTT.Text.GraphemeBreak

/-!
User-perceived characters. A text is read from left to right; each character either continues the
cluster before it or begins a new one, which depends on the class of the character before it and on
a little of what that cluster holds: whether a pictograph waits to be joined, whether a consonant
waits to be joined, and whether a regional indicator waits for its partner.
-/

set_option autoImplicit false
set_option relaxedAutoImplicit false

namespace RankedTT.Text

/-- How far the current cluster has come towards joining the next character of a kind: not at all,
one such character has been seen, or the character that joins it to the next has been seen too. -/
inductive Joining where
  | none
  | started
  | linked
deriving DecidableEq, Repr

structure ClusterState where
  last : GraphemeClass
  pictograph : Joining
  consonant : Joining
  /-- An odd number of regional indicators ends the text so far. -/
  openIndicator : Bool

def pictographAfter (before : Joining) (c : Char) (cls : GraphemeClass) : Joining :=
  if isPictographic c then .started
  else match before, cls with
    | .started, .extend => .started
    | .started, .zwj => .linked
    | _, _ => .none

def consonantAfter (before : Joining) (c : Char) (cls : GraphemeClass) : Joining :=
  if isConjunctConsonant c then .started
  else match before with
    | .none => .none
    | seen =>
      if isConjunctLinker c then .linked
      else if (cls = .extend || cls = .zwj) && c.toNat != 0x200C then seen
      else .none

def ClusterState.start (c : Char) : ClusterState :=
  let cls := graphemeClass c
  ⟨cls, pictographAfter .none c cls, consonantAfter .none c cls, cls = .regionalIndicator⟩

def ClusterState.next (state : ClusterState) (c : Char) : ClusterState :=
  let cls := graphemeClass c
  ⟨cls, pictographAfter state.pictograph c cls, consonantAfter state.consonant c cls,
    cls = .regionalIndicator && !state.openIndicator⟩

/-- Whether `c` continues the cluster that ends in `state`. -/
def ClusterState.continues (state : ClusterState) (c : Char) : Bool :=
  match state.last, graphemeClass c with
  | .cr, .lf => true
  | .cr, _ | .lf, _ | .control, _ => false
  | _, .cr | _, .lf | _, .control => false
  | .hangulL, .hangulL | .hangulL, .hangulV | .hangulL, .hangulLV | .hangulL, .hangulLVT => true
  | .hangulLV, .hangulV | .hangulLV, .hangulT | .hangulV, .hangulV | .hangulV, .hangulT => true
  | .hangulLVT, .hangulT | .hangulT, .hangulT => true
  | _, .extend | _, .zwj | _, .spacingMark => true
  | .prepend, _ => true
  | _, .regionalIndicator => state.openIndicator
  | _, _ =>
    state.consonant = .linked && isConjunctConsonant c ||
      state.pictograph = .linked && isPictographic c

def countClustersFrom (state : ClusterState) : List Char → Nat
  | [] => 1
  | c :: rest =>
    (if state.continues c then 0 else 1) + countClustersFrom (state.next c) rest

def countClusters : List Char → Nat
  | [] => 0
  | c :: rest => countClustersFrom (.start c) rest

/-- The number of columns that a text takes. -/
def width (s : String) : Nat :=
  if s.toList.all (·.toNat < 0x80) then s.length else countClusters s.toList

end RankedTT.Text
