import RankedTT.Eval.Basic
import RankedTT.Module.Cache
import RankedTT.Module.ImportGraph
import RankedTT.Module.Source
import RankedTT.Prelude
import RankedTT.Session.Error
import RankedTT.Settings
import RankedTT.Typing.Judge

/-!
Sessions: the definitions made so far, the source of modules, and the modules loaded. A term is
checked against the definitions, its type and its elaboration are normalized, and it is evaluated if
it lives in the base universe. An import loads a module from the source by executing its program in
the session; a loaded module is kept until it, or a module that it imports, is changed.
-/

set_option autoImplicit false
set_option relaxedAutoImplicit false

namespace RankedTT

/-- What loading modules changes: the loaded modules, their imports, and the modules that are being
loaded, the outermost first. -/
structure Modules where
  loaded : Cache (Classified Value)
  imports : ImportGraph
  loading : List String

def Modules.empty : Modules := ⟨.empty, .empty, []⟩

structure Session where
  /-- The definitions with their values. -/
  env : Env (Classified Value)
  /-- The definitions as the typing rules see them: values are constants, and types unfold. -/
  checkerEnv : Env (Classified Core)
  source : Source
  modules : Modules
  settings : Settings

namespace Modules

/-- Record that the module being loaded, if there is one, imports `name`. -/
def request (name : String) (modules : Modules) : Modules :=
  match modules.loading.getLast? with
  | some importer => { modules with imports := modules.imports.add importer name }
  | none => modules

/-- The chain of imports that leads back to `name`, if it is being loaded. -/
def cycle? (modules : Modules) (name : String) : Option (List String) :=
  if modules.loading.contains name then
    some (modules.loading.dropWhile (· != name) ++ [name])
  else none

/-- Begin to load a module; its imports are found anew. -/
def enter (name : String) (modules : Modules) : Modules :=
  { modules with imports := modules.imports.erase name, loading := modules.loading ++ [name] }

def leave (modules : Modules) : Modules := { modules with loading := modules.loading.dropLast }

def keep (name : String) (result : Classified Value) (modules : Modules) : Modules :=
  { modules with loaded := modules.loaded.insert name result }

/-- Mark a module and all modules that import it as stale. -/
def invalidate (name : String) (modules : Modules) : Modules :=
  { modules with
    loaded := (modules.imports.reverseDependencies name).foldl Cache.invalidate modules.loaded }

end Modules

/-- Steps of a session that load modules. -/
abbrev Load (α : Type) := Run (Progress Modules) SessionError α

namespace Load

def changeModules (f : Modules → Modules) : Load Unit :=
  modify fun progress ↦ { progress with host := f progress.host }

def modules : Load Modules := return (← get).host

def record (event : Event) : Load Unit := modify (Progress.record event)

/-- An evaluation, which leaves the modules alone. -/
def ofEval {α : Type} (action : Eval α) : Load α :=
  ExceptT.mk fun progress ↦
    let (outcome, journal) := action.start progress.journal
    (outcome.mapError (Stop.map .runtime), { progress with journal := journal })

end Load

namespace Session

def empty : Session := ⟨.empty, .empty, [], .empty, .standard⟩

/-- The session that starts out with the prelude. -/
def withPrelude : Session :=
  { empty with env := Prelude.env, checkerEnv := Prelude.checkerEnv }

/-- The definitions as the evaluator sees them. -/
def runtimeEnv (session : Session) : Env Value :=
  session.env.mapBindings fun _ judgement ↦ judgement.term

/-- The normalized elaboration of a term, and its value. -/
def run (fuel : Nat) (session : Session) (load : String → Load (Classified Value)) (term : Term) :
    Load (Classified Core × Classified Value) := do
  let elaborated ← Run.mapError .ofRefusal (checkProgram ⟨fuel, load⟩ session.checkerEnv term)
  let normalized ← Run.mapError .ofRefusal (Check.normalized fuel ⟨session.checkerEnv⟩ elaborated)
  let value ←
    if elaborated.rank = 0 then Load.ofEval (evaluate fuel session.runtimeEnv elaborated)
    else pure .absent
  return (normalized, normalized.withTerm value)

/-- Load a module for an import, at most `depth` modules deep. -/
def loadModule (fuel : Nat) (session : Session) : (depth : Nat) → String → Load (Classified Value)
  | 0, _ => Run.outOfFuel
  | depth + 1, name => do
    Load.changeModules (Modules.request name)
    let modules ← Load.modules
    if let some module := modules.loaded.getUnlessStale? name then
      Load.record (.foundInCache name)
      return module
    if let some cycle := modules.cycle? name then
      Run.fail (.importCycle name cycle)
    Load.record (.loading name)
    let program ← Run.ofOption (.moduleNotFound name) (session.source.read? name)
    Load.changeModules (Modules.enter name)
    let (_, result) ← leaving (run fuel session (loadModule fuel session depth) program)
    Load.changeModules (Modules.keep name result)
    return result
where
  /-- Leave the module that is being loaded, whether its execution succeeds or fails. -/
  leaving {α : Type} (action : Load α) : Load α :=
    ExceptT.mk fun progress ↦
      let (outcome, progress) := action.start progress
      (outcome, { progress with host := progress.host.leave })

/-- How deep imports can go: the modules being loaded are different programs of the source. -/
def loadDepth (session : Session) : Nat := session.source.size + 1

/-- Run a term with the imports of the session. -/
def runTerm (fuel : Nat) (session : Session) (term : Term) :
    Load (Classified Core × Classified Value) :=
  run fuel session (loadModule fuel session session.loadDepth) term

end Session

/-- Steps that change a session. -/
abbrev SessionStep (α : Type) := Run (Progress Session) SessionError α

namespace Session

/-- Loading modules as a step of the session. -/
def loading {α : Type} (action : Session → Load α) : SessionStep α :=
  ExceptT.mk fun progress ↦
    let session := progress.host
    let (outcome, after) := (action session).start ⟨session.modules, progress.journal⟩
    (outcome, ⟨{ session with modules := after.host }, after.journal⟩)

def execute (fuel : Nat) (term : Term) : SessionStep (Classified Value) := do
  let (_, result) ← loading fun session ↦ session.runTerm fuel term
  return result

/-- Bind a name to a result; a value is opaque to the typing rules, a type is not. -/
def bind (name : String) (elaborated : Classified Core) (result : Classified Value)
    (session : Session) : Session :=
  let checked := if result.rank = 0 then elaborated.withTerm (.const result.term) else elaborated
  { session with
    env := session.env.push name result
    checkerEnv := session.checkerEnv.push name checked }

/-- Execute a term, checked against an annotation if there is one, and bind the result. -/
def define (fuel : Nat) (name : String) (type? : Option Term) (term : Term) :
    SessionStep (Classified Value) := do
  if (← get).host.env.maps name then Run.fail (.redefinition name)
  let term := match type? with
    | some type => .anno type term
    | none => term
  let (elaborated, result) ← loading fun session ↦ session.runTerm fuel term
  modify (Progress.record (.defined name result.type))
  modify fun progress ↦ { progress with host := progress.host.bind name elaborated result }
  return result

/-- Replace the program of a module. -/
def updateModule (name : String) (program : Term) (session : Session) : Session :=
  { session with
    source := session.source.write name program
    modules := session.modules.invalidate name }

/-- Remove the program of a module from the source; the answer is whether there was one. -/
def forgetModule (name : String) (session : Session) : Bool × Session :=
  (session.source.has name,
    { session with
      source := Source.forget name session.source
      modules := session.modules.invalidate name })

/-- Whether a module is loaded and up to date. -/
def isLoaded (session : Session) (name : String) : Bool := !session.modules.loaded.isStale name

def lookup (session : Session) (name : String) : Option (Classified Value) := session.env.get? name

def render (session : Session) (result : Classified Value) : String :=
  print session.settings.config result

/-- A result and a newline, coloured as the settings say; a choice that depends on the terminal
counts as no colour. -/
def printResult (session : Session) (result : Classified Value) : String :=
  match session.settings.colourise with
  | .always | .alwaysAnsi => printColoured session.settings.config result ++ "\n"
  | .never | .auto => print session.settings.config result ++ "\n"

end Session

end RankedTT
