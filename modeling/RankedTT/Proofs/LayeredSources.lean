import RankedTT.Module.Overlay
import RankedTT.Proofs.ModuleState
import Mathlib.Logic.Function.Basic

/-!
Sources as stacks of maps. What a layer is good for is the map from names to the programs that it
has, and a source is a stack of such maps: reading looks a name up in the topmost map that has it,
writing changes that map at the name, or the top of the stack if no map has it, and forgetting makes
that map undefined at the name. Every overlay is such a stack, however its sides are nested, and it
remains one under all changes: each choice that an overlay makes between its two sides is the choice
of the stack that consists of the layers of both.
-/

set_option autoImplicit false
set_option relaxedAutoImplicit false

namespace RankedTT

/-! ### Stacks of maps -/

/-- The topmost map first. -/
abbrev MapStack := List (String → Option Term)

namespace MapStack

/-- The position of the topmost map that has the name. -/
def position? (stack : MapStack) (name : String) : Option Nat :=
  List.findIdx? (fun layer ↦ (layer name).isSome) stack

/-- The program under the name in the topmost map that has it. -/
def read? (stack : MapStack) (name : String) : Option Term :=
  (stack.position? name).bind fun i ↦ stack[i]?.bind fun layer ↦ layer name

/-- Change the topmost map that has the name, or the top of the stack. -/
def write (stack : MapStack) (name : String) (program : Term) : MapStack :=
  stack.modify ((stack.position? name).getD 0) fun layer ↦ Function.update layer name (some program)

/-- Make the topmost map that has the name undefined there. -/
def forget (stack : MapStack) (name : String) : MapStack :=
  match stack.position? name with
  | some i => stack.modify i fun layer ↦ Function.update layer name none
  | none => stack

/-- The maps under the topmost one that has the name. -/
def below (stack : MapStack) (name : String) : MapStack :=
  match stack.position? name with
  | some i => stack.drop (i + 1)
  | none => []

variable {layer : String → Option Term} {rest stack : MapStack} {name x : String}
  {program : Term}

@[simp]
theorem position?_nil : position? [] name = none := rfl

theorem position?_cons_of_isSome (h : (layer name).isSome) :
    position? (layer :: rest) name = some 0 := by
  simp [position?, List.findIdx?_cons, h]

theorem position?_cons_of_eq_none (h : layer name = none) :
    position? (layer :: rest) name = (rest.position? name).map (· + 1) := by
  simp [position?, List.findIdx?_cons, h]

@[simp]
theorem read?_nil : read? [] name = none := rfl

theorem read?_cons : read? (layer :: rest) name = (layer name).or (rest.read? name) := by
  unfold read?
  cases h : layer name with
  | some program => simp [position?_cons_of_isSome, h]
  | none => cases hrest : rest.position? name <;> simp [position?_cons_of_eq_none h, hrest]

theorem isSome_read? : (stack.read? name).isSome = (stack.position? name).isSome := by
  induction stack with
  | nil => rfl
  | cons layer rest ih =>
    rw [read?_cons]
    cases h : layer name with
    | some program => simp [position?_cons_of_isSome, h]
    | none => simp [position?_cons_of_eq_none h, ih]

theorem write_cons_of_isSome (h : (layer name).isSome) :
    write (layer :: rest) name program = Function.update layer name (some program) :: rest := by
  simp [write, position?_cons_of_isSome h]

theorem write_cons_of_eq_none (h : layer name = none) :
    write (layer :: rest) name program =
      if (rest.position? name).isSome then layer :: rest.write name program
      else Function.update layer name (some program) :: rest := by
  unfold write
  cases hrest : rest.position? name <;> simp [position?_cons_of_eq_none h, hrest]

@[simp]
theorem forget_nil : forget [] name = [] := rfl

theorem forget_cons_of_isSome (h : (layer name).isSome) :
    forget (layer :: rest) name = Function.update layer name none :: rest := by
  simp [forget, position?_cons_of_isSome h]

theorem forget_cons_of_eq_none (h : layer name = none) :
    forget (layer :: rest) name = layer :: rest.forget name := by
  unfold forget
  cases hrest : rest.position? name <;> simp [position?_cons_of_eq_none h, hrest]

theorem read?_write_self (hstack : stack ≠ []) :
    (stack.write name program).read? name = some program := by
  induction stack with
  | nil => exact absurd rfl hstack
  | cons layer rest ih =>
    cases h : layer name with
    | some old => simp [write_cons_of_isSome, read?_cons, h]
    | none =>
      rw [write_cons_of_eq_none h]
      split
      · rename_i hrest
        rw [read?_cons, h, Option.none_or]
        refine ih ?_
        rintro rfl
        simp at hrest
      · simp [read?_cons]

theorem read?_write_of_ne (hx : x ≠ name) :
    (stack.write name program).read? x = stack.read? x := by
  induction stack with
  | nil => rfl
  | cons layer rest ih =>
    cases h : layer name with
    | some old => simp [write_cons_of_isSome, read?_cons, h, hx]
    | none =>
      rw [write_cons_of_eq_none h]
      split <;> simp [read?_cons, ih, hx]

theorem read?_forget_of_ne (hx : x ≠ name) : (stack.forget name).read? x = stack.read? x := by
  induction stack with
  | nil => rfl
  | cons layer rest ih =>
    cases h : layer name with
    | some old => simp [forget_cons_of_isSome, read?_cons, h, hx]
    | none => simp [forget_cons_of_eq_none h, read?_cons, ih]

/-- What is forgotten uncovers the maps below. -/
theorem read?_forget_self : (stack.forget name).read? name = (stack.below name).read? name := by
  induction stack with
  | nil => rfl
  | cons layer rest ih =>
    cases h : layer name with
    | some old => simp [forget_cons_of_isSome, below, position?_cons_of_isSome, read?_cons, h]
    | none =>
      rw [forget_cons_of_eq_none h, read?_cons, h, Option.none_or, ih]
      unfold below
      cases hrest : position? rest name <;> simp [position?_cons_of_eq_none h, hrest]

end MapStack

/-! ### Layers -/

namespace Layer

variable (layer : Layer) (name : String)

/-- What a layer has. -/
def map : String → Option Term := fun x ↦ List.lookup x layer

theorem isSome_map : (layer.map name).isSome = layer.has name := rfl

theorem map_insert (program : Term) :
    (layer.insert name program).map = Function.update layer.map name (some program) := by
  funext x
  by_cases hx : x = name
  · rw [hx, Function.update_self]
    exact List.lookup_cons_self
  · rw [Function.update_of_ne hx]
    exact Source.lookup_insert_of_ne layer program hx

theorem map_erase : (layer.erase name).map = Function.update layer.map name none := by
  funext x
  by_cases hx : x = name
  · rw [hx, Function.update_self, map, erase, List.lookup_eq_none_iff]
    intro entry hentry
    have hne : entry.1 ≠ name := bne_iff_ne.mp (List.mem_filter.mp hentry).2
    exact bne_iff_ne.mpr hne.symm
  · rw [Function.update_of_ne hx]
    exact Cache.lookup_filter_ne layer hx

theorem erase_of_not_has (h : layer.has name = false) : layer.erase name = layer := by
  have hnone : List.lookup name layer = none := by simpa [has] using h
  refine List.filter_eq_self.mpr fun entry hentry ↦ bne_iff_ne.mpr ?_
  exact (bne_iff_ne.mp (List.lookup_eq_none_iff.mp hnone entry hentry)).symm

end Layer

/-! ### Sources -/

namespace Source

variable (source below : Source) (name : String) (program : Term)

/-- What the layers have. -/
def maps : MapStack := source.map Layer.map

@[simp]
theorem maps_cons (layer : Layer) : maps (layer :: below) = layer.map :: below.maps := rfl

theorem read?_eq_maps : source.read? name = source.maps.read? name := by
  induction source with
  | nil => rfl
  | cons layer below ih =>
    rw [read?_cons, maps_cons, MapStack.read?_cons, ih]
    rfl

theorem has_cons (layer : Layer) : has (layer :: below) name = (layer.has name || has below name) :=
  rfl

theorem has_eq_maps : source.has name = (source.maps.position? name).isSome := by
  induction source with
  | nil => rfl
  | cons layer below ih =>
    rw [has_cons, maps_cons, ih]
    cases h : layer.map name with
    | some old =>
      rw [MapStack.position?_cons_of_isSome (by rw [h]; rfl), ← Layer.isSome_map, h]
      rfl
    | none =>
      rw [MapStack.position?_cons_of_eq_none h, ← Layer.isSome_map, h]
      simp

/-- Whether the topmost layer has the name. -/
theorem map_eq_none_iff (layer : Layer) : layer.map name = none ↔ layer.has name = false := by
  rw [← Layer.isSome_map]
  simp

theorem maps_replace (h : source.has name) :
    (replace name program source).maps = source.maps.write name program := by
  induction source with
  | nil => cases h
  | cons layer below ih =>
    rw [replace, maps_cons]
    cases hlayer : layer.has name with
    | true =>
      rw [MapStack.write_cons_of_isSome (by rwa [Layer.isSome_map]), if_pos rfl, maps_cons,
        Layer.map_insert]
    | false =>
      have hbelow : has below name := by rwa [has_cons, hlayer, Bool.false_or] at h
      rw [MapStack.write_cons_of_eq_none ((map_eq_none_iff name layer).mpr hlayer),
        ← has_eq_maps, if_pos hbelow, if_neg Bool.false_ne_true, maps_cons, ih hbelow]

theorem maps_write (h : source ≠ []) :
    (source.write name program).maps = source.maps.write name program := by
  unfold write
  split
  · rename_i hhas
    exact maps_replace source name program hhas
  · rename_i hhas
    cases source with
    | nil => exact absurd rfl h
    | cons layer below =>
      simp only [has_cons, Bool.or_eq_true, not_or, Bool.not_eq_true] at hhas
      rw [maps_cons, maps_cons,
        MapStack.write_cons_of_eq_none ((map_eq_none_iff name layer).mpr hhas.1), ← has_eq_maps,
        hhas.2, if_neg Bool.false_ne_true, Layer.map_insert]

theorem maps_forget : (forget name source).maps = source.maps.forget name := by
  induction source with
  | nil => rfl
  | cons layer below ih =>
    rw [forget, maps_cons]
    cases hlayer : layer.has name with
    | true =>
      rw [MapStack.forget_cons_of_isSome (by rwa [Layer.isSome_map]), if_pos rfl, maps_cons,
        Layer.map_erase]
    | false =>
      rw [MapStack.forget_cons_of_eq_none ((map_eq_none_iff name layer).mpr hlayer),
        if_neg Bool.false_ne_true, maps_cons, ih]

/-! ### One stack on top of another -/

theorem has_append : has (source ++ below) name = (source.has name || below.has name) :=
  List.any_append

theorem read?_append : read? (source ++ below) name = (source.read? name).or (below.read? name) :=
  List.findSome?_append

theorem replace_append :
    replace name program (source ++ below) =
      if source.has name then replace name program source ++ below
      else source ++ replace name program below := by
  induction source with
  | nil => rfl
  | cons layer rest ih =>
    rw [List.cons_append, replace, replace, has_cons, ih]
    cases layer.has name <;> cases has rest name <;> simp

theorem write_append (h : source ≠ []) :
    write (source ++ below) name program =
      if source.has name || !below.has name then source.write name program ++ below
      else source ++ below.write name program := by
  unfold write
  rw [has_append, replace_append]
  cases hfirst : source.has name <;> cases hsecond : below.has name
  · cases source with
    | nil => exact absurd rfl h
    | cons layer rest => simp
  · simp
  · simp
  · simp

theorem forget_of_not_has (h : source.has name = false) : forget name source = source := by
  induction source with
  | nil => rfl
  | cons layer rest ih =>
    rw [has_cons, Bool.or_eq_false_iff] at h
    rw [forget, h.1, ih h.2, if_neg Bool.false_ne_true]

theorem forget_append :
    forget name (source ++ below) =
      if source.has name then forget name source ++ below else source ++ forget name below := by
  induction source with
  | nil => rfl
  | cons layer rest ih =>
    rw [List.cons_append, forget, forget, has_cons, ih]
    cases layer.has name <;> cases has rest name <;> simp

end Source

/-! ### Overlays -/

namespace Overlay

variable (o : Overlay) (name : String) (program : Term)

theorem layers_ne_nil : o.layers ≠ [] := by
  induction o with
  | memory modules => exact List.cons_ne_nil _ _
  | overlaid first second ihfirst _ => exact List.append_ne_nil_of_left_ne_nil ihfirst _

theorem has_eq_layers : o.has name = o.layers.has name := by
  induction o with
  | memory modules => exact (Bool.or_false _).symm
  | overlaid first second ihfirst ihsecond =>
    rw [has, layers, Source.has_append, ihfirst, ihsecond]

theorem read_eq_layers :
    o.read name = (o.layers.read? name).elim (.error (.moduleNotFound name)) .ok := by
  induction o with
  | memory modules =>
    rw [read, layers, Source.read?_cons]
    cases List.lookup name modules <;> rfl
  | overlaid first second ihfirst ihsecond =>
    rw [read, layers, Source.read?_append, ihfirst, ihsecond]
    cases first.layers.read? name <;> rfl

theorem write_eq_layers :
    ∃ written, o.write name program = .ok written ∧
      written.layers = o.layers.write name program := by
  induction o with
  | memory modules =>
    refine ⟨_, rfl, ?_⟩
    cases h : modules.has name <;> simp [layers, Source.write, Source.has, Source.replace, h]
  | overlaid first second ihfirst ihsecond =>
    obtain ⟨first', hfirst, hfirst'⟩ := ihfirst
    obtain ⟨second', hsecond, hsecond'⟩ := ihsecond
    rw [write, layers, Source.write_append _ _ _ _ first.layers_ne_nil, has_eq_layers,
      has_eq_layers]
    split
    · exact ⟨overlaid first' second, by rw [hfirst]; rfl, congrArg (· ++ _) hfirst'⟩
    · exact ⟨overlaid first second', by rw [hsecond]; rfl, congrArg (_ ++ ·) hsecond'⟩

theorem forget_eq_layers :
    (o.forget name).1 = o.layers.has name ∧
      (o.forget name).2.layers = Source.forget name o.layers := by
  induction o with
  | memory modules =>
    refine ⟨(Bool.or_false _).symm, ?_⟩
    rw [forget, layers, layers, Source.forget, Source.forget]
    cases h : modules.has name with
    | true => rfl
    | false => rw [Layer.erase_of_not_has modules name h, if_neg Bool.false_ne_true]
  | overlaid first second ihfirst ihsecond =>
    rw [forget, layers, Source.has_append, Source.forget_append, ← ihfirst.1]
    have hrest := ihfirst.2
    generalize first.forget name = r at hrest ihfirst
    obtain ⟨found, rest⟩ := r
    cases found with
    | true => exact ⟨(Bool.true_or _).symm, congrArg (· ++ _) hrest⟩
    | false =>
      -- nothing was forgotten on the first side
      have hsame : Source.forget name first.layers = first.layers :=
        Source.forget_of_not_has _ _ ihfirst.1.symm
      refine ⟨ihsecond.1, ?_⟩
      rw [if_neg Bool.false_ne_true, layers, hrest, hsame, ihsecond.2]

end Overlay

/-! ### Sequences of changes -/

inductive SourceChange where
  | write (name : String) (program : Term)
  | forget (name : String)

def MapStack.change (stack : MapStack) : SourceChange → MapStack
  | .write name program => stack.write name program
  | .forget name => stack.forget name

def Source.change (source : Source) : SourceChange → Source
  | .write name program => source.write name program
  | .forget name => Source.forget name source

namespace Overlay

def change (o : Overlay) : SourceChange → Except SessionError Overlay
  | .write name program => o.write name program
  | .forget name => .ok (o.forget name).2

/-- The changes in turn, up to the first that fails. -/
def after (o : Overlay) (changes : List SourceChange) : Except SessionError Overlay :=
  changes.foldlM change o

/-- What the memories have, from left to right. -/
def maps (o : Overlay) : MapStack := o.layers.maps

theorem maps_ne_nil (o : Overlay) : o.maps ≠ [] := mt List.map_eq_nil_iff.mp o.layers_ne_nil

theorem change_eq_layers (o : Overlay) (c : SourceChange) :
    ∃ changed, o.change c = .ok changed ∧ changed.layers = o.layers.change c := by
  cases c with
  | write name program => exact o.write_eq_layers name program
  | forget name => exact ⟨_, rfl, (o.forget_eq_layers name).2⟩

theorem maps_change {o changed : Overlay} {c : SourceChange}
    (h : changed.layers = o.layers.change c) : changed.maps = o.maps.change c := by
  rw [maps, h]
  cases c with
  | write name program => exact Source.maps_write o.layers name program o.layers_ne_nil
  | forget name => exact Source.maps_forget o.layers name

theorem after_eq_layers (o : Overlay) (changes : List SourceChange) :
    ∃ later, o.after changes = .ok later ∧
      later.layers = changes.foldl Source.change o.layers ∧
      later.maps = changes.foldl MapStack.change o.maps := by
  induction changes generalizing o with
  | nil => exact ⟨o, rfl, rfl, rfl⟩
  | cons c changes ih =>
    obtain ⟨changed, hchange, hlayers⟩ := o.change_eq_layers c
    obtain ⟨later, hlater, hrest, hmaps⟩ := ih changed
    refine ⟨later, ?_, by rw [hrest, hlayers]; rfl, by rw [hmaps, maps_change hlayers]; rfl⟩
    rw [after, List.foldlM_cons, hchange]
    exact hlater

theorem read_eq_maps (o : Overlay) (name : String) :
    o.read name = (o.maps.read? name).elim (.error (.moduleNotFound name)) .ok := by
  rw [read_eq_layers, Source.read?_eq_maps]
  rfl

theorem has_iff_reads (o : Overlay) (name : String) :
    o.has name = true ↔ ∃ program, o.read name = .ok program := by
  rw [read_eq_maps, has_eq_layers, Source.has_eq_maps, ← MapStack.isSome_read?]
  change (o.maps.read? name).isSome = true ↔ _
  cases o.maps.read? name with
  | some program => exact ⟨fun _ ↦ ⟨program, rfl⟩, fun _ ↦ rfl⟩
  | none => exact ⟨nofun, nofun⟩

/-- However the sides of an overlay are nested, and whatever has been written and forgotten: it is
the stack of maps that the same changes make of the maps of its memories, and its memories are what
the changes make of the list of them. Reading succeeds iff the name is there, and finds the program
of the topmost map that has it. Writing succeeds; it changes the topmost map that has the name, or
else the first map, so that the program is read under its name and nothing else is read differently.
Forgetting tells whether the name was there; it changes the topmost map that has the name, so that
the maps below are read under the name and nothing else is read differently. -/
theorem behavesAsStack (o : Overlay) (changes : List SourceChange) :
    ∃ later, o.after changes = .ok later ∧
      later.layers = changes.foldl Source.change o.layers ∧
      later.maps = changes.foldl MapStack.change o.maps ∧
      ∀ name,
        (later.has name = true ↔ ∃ program, later.read name = .ok program) ∧
        later.read name = (later.maps.read? name).elim (.error (.moduleNotFound name)) .ok ∧
        (∀ program, ∃ written, later.write name program = .ok written ∧
          written.maps = later.maps.write name program ∧ written.read name = .ok program ∧
          ∀ x, x ≠ name → written.read x = later.read x) ∧
        (later.forget name).1 = later.has name ∧
        (later.forget name).2.maps = later.maps.forget name ∧
        (later.forget name).2.read name =
          ((later.maps.below name).read? name).elim (.error (.moduleNotFound name)) .ok ∧
        ∀ x, x ≠ name → (later.forget name).2.read x = later.read x := by
  obtain ⟨later, hlater, hlayers, hmaps⟩ := o.after_eq_layers changes
  refine ⟨later, hlater, hlayers, hmaps, fun name ↦ ?_⟩
  obtain ⟨hfound, hforget⟩ := later.forget_eq_layers name
  have hrest : (later.forget name).2.maps = later.maps.forget name :=
    maps_change (c := .forget name) hforget
  refine ⟨later.has_iff_reads name, later.read_eq_maps name, fun program ↦ ?_,
    hfound.trans (later.has_eq_layers name).symm, hrest, ?_, fun x hx ↦ ?_⟩
  · obtain ⟨written, hwritten, hlayers⟩ := later.write_eq_layers name program
    have hmaps : written.maps = later.maps.write name program :=
      maps_change (c := .write name program) hlayers
    refine ⟨written, hwritten, hmaps, ?_, fun x hx ↦ ?_⟩
    · rw [read_eq_maps, hmaps, MapStack.read?_write_self later.maps_ne_nil]
      rfl
    · rw [read_eq_maps, read_eq_maps, hmaps, MapStack.read?_write_of_ne hx]
  · rw [read_eq_maps, hrest, MapStack.read?_forget_self]
  · rw [read_eq_maps, read_eq_maps, hrest, MapStack.read?_forget_of_ne hx]

end Overlay

end RankedTT
