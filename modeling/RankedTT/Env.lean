/-!
Environments: finite lists of named bindings, the most recent binding first. Pushing a binding never
changes the environment it extends, and a look-up answers with the most recent binding of a name.
-/

set_option autoImplicit false
set_option relaxedAutoImplicit false

namespace RankedTT

abbrev Env (α : Type) := List (String × α)

/-- A name without a binding. -/
structure Unbound where
  name : String
deriving DecidableEq, Repr

namespace Unbound

def message (cause : Unbound) : String := "Unbound identifier: " ++ cause.name

def code : String := "E-001"

end Unbound

namespace Env

variable {α β : Type}

def empty : Env α := []

def push (env : Env α) (name : String) (binding : α) : Env α := (name, binding) :: env

/-- The most recent binding of `name`. -/
def get? (env : Env α) (name : String) : Option α := List.lookup name env

/-- The most recent binding of `name`, or the complaint that there is none. -/
def lookup (env : Env α) (name : String) : Except Unbound α :=
  match get? env name with
  | some binding => .ok binding
  | none => .error ⟨name⟩

def maps (env : Env α) (name : String) : Bool := (get? env name).isSome

/-- Transform every binding, keeping names and order. -/
def mapBindings (f : String → α → β) (env : Env α) : Env β :=
  List.map (fun entry ↦ (entry.1, f entry.1 entry.2)) env

/-- Push the entries in turn on top of `env`, so that the last entry becomes the most recent
binding. -/
def pushAll (env : Env α) (entries : List (String × α)) : Env α :=
  entries.foldl (fun env entry ↦ push env entry.1 entry.2) env

@[simp]
theorem get?_empty (name : String) : get? (empty : Env α) name = none := rfl

@[simp]
theorem get?_push_self (env : Env α) (name : String) (binding : α) :
    get? (push env name binding) name = some binding := by
  simp [get?, push]

theorem get?_push_of_ne (env : Env α) {name other : String} (binding : α) (h : other ≠ name) :
    get? (push env name binding) other = get? env other := by
  have hbeq : (other == name) = false := by simpa using h
  simp [get?, push, List.lookup_cons, hbeq]

theorem get?_mapBindings (f : String → α → β) (env : Env α) (name : String) :
    get? (mapBindings f env) name = (get? env name).map (f name) := by
  unfold mapBindings get?
  induction env with
  | nil => rfl
  | cons entry env ih =>
    rw [List.map_cons, List.lookup_cons, List.lookup_cons]
    cases h : name == entry.1 with
    | true =>
      rw [eq_of_beq h]
      rfl
    | false => exact ih

end Env

end RankedTT
