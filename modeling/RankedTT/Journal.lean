import RankedTT.Core.Stamp
import RankedTT.Term.Printer
import RankedTT.Typing.Context

/-!
The journal of a run: the supply of stamps for function bodies, and the messages that the run left
behind. Messages are kept as events and worded only when they are read.
-/

set_option autoImplicit false
set_option relaxedAutoImplicit false

namespace RankedTT

inductive Event where
  /-- A term is about to be checked against a type. -/
  | checking (ctx : Ctx) (term : Term) (expected : Core)
  /-- A type was found for a term. -/
  | inferred (ctx : Ctx) (term : Term) (type : Core)
  /-- Two judgements are about to be compared. -/
  | comparing (env : NormEnv) (found expected : Classified Core)
  | normalized (env : NormEnv) (term normalForm : Core)
  | evaluated (term : Core) (value : Value)
  | defined (name : String) (type : Core)
  | loading (name : String)
  | foundInCache (name : String)

inductive LogLevel where
  | off
  | error
  | warn
  | info
  | debug
  | trace
deriving DecidableEq, Repr, Inhabited

namespace Event

def level : Event → LogLevel
  | defined .. | loading _ | foundInCache _ => .debug
  | _ => .trace

def message : Event → String
  | checking ctx term expected =>
    oneLine ctx ++ " |- " ++ oneLine term ++ " <= " ++ oneLine expected
  | inferred ctx term type => oneLine ctx ++ " |- " ++ oneLine term ++ " => " ++ oneLine type
  | comparing env found expected =>
    oneLine env ++ " |- " ++ oneLine found ++ " =? " ++ oneLine expected
  | normalized env term normalForm =>
    oneLine env ++ " |- " ++ oneLine term ++ " ▷ " ++ oneLine normalForm
  | evaluated term value => oneLine term ++ " ▷ " ++ oneLine value
  | defined name type => "Defined " ++ name ++ " : " ++ oneLine type
  | loading name => "Loading module " ++ name
  | foundInCache name => "Found module " ++ name ++ " in cache"

end Event

structure Journal where
  nextStamp : Nat
  /-- The events so far, the latest first. -/
  events : List Event
deriving Inhabited

namespace Journal

def empty : Journal := ⟨0, []⟩

def record (event : Event) (journal : Journal) : Journal :=
  { journal with events := event :: journal.events }

/-- Give stamps to the newly built function bodies of a term. -/
def stamp (t : Core) (journal : Journal) : Core × Journal :=
  let (t, next) := t.assignStamps journal.nextStamp
  (t, { journal with nextStamp := next })

def takeStamp (journal : Journal) : Nat × Journal :=
  (journal.nextStamp, { journal with nextStamp := journal.nextStamp + 1 })

end Journal

/-- The state of a run that is embedded in a host: the state of the host and the journal. -/
structure Progress (σ : Type) where
  host : σ
  journal : Journal

namespace Progress

def record {σ : Type} (event : Event) (progress : Progress σ) : Progress σ :=
  { progress with journal := progress.journal.record event }

def stamp {σ : Type} (t : Core) (progress : Progress σ) : Core × Progress σ :=
  let (t, journal) := progress.journal.stamp t
  (t, { progress with journal := journal })

end Progress

end RankedTT
