import Mathlib.Data.Finset.Dedup
import RankedTT.Proofs.Loops
import RankedTT.Proofs.Names

/-!
Names under substitution. A binder that is renamed gets a primed name that is free neither in the
body nor in the terms that are substituted there; a name that is free after a substitution was free
before and not substituted, or comes from the image of a free name. Nothing here excludes that a
record member captures a name, which can only make fewer names free.
-/

set_option autoImplicit false
set_option relaxedAutoImplicit false

namespace RankedTT

/-! ### Primed names -/

/-- Names that end in a prime, as those given to renamed binders do. -/
def IsPrimed (name : String) : Prop := ∃ stem : String, name = stem ++ "'"

theorem IsPrimed.getLast?_eq {name : String} (h : IsPrimed name) :
    name.toList.getLast? = some (Char.ofNat 39) := by
  obtain ⟨stem, rfl⟩ := h
  simp

theorem IsPrimed.ne_anonymous {name : String} (h : IsPrimed name) : name ≠ anonymous := by
  rintro rfl
  exact absurd h.getLast?_eq (by decide)

theorem length_iterate_prime (i : Nat) (name : String) :
    ((· ++ "'")^[i] name).length = name.length + i := by
  induction i generalizing name with
  | zero => rfl
  | succ i ih =>
    have hprime : "'".length = 1 := rfl
    rw [Function.iterate_succ_apply, ih, String.length_append]
    omega

/-- The search for a primed name is the loop that adds primes as long as the name is taken. The
candidates grow, so none of them comes twice. -/
theorem loop_freshPrimed (taken : List String) (name : String) :
    ∃ n ≤ taken.length,
      Loop taken.contains (· ++ "'") (name ++ "'") n (freshPrimed taken name) := by
  have hinjective : Function.Injective fun i ↦ id ((· ++ "'")^[i] (name ++ "'")) := by
    intro i j hij
    have hlength := congrArg String.length hij
    simp only [id, length_iterate_prime] at hlength
    exact Nat.add_left_cancel hlength
  obtain ⟨n, hn, fresh, hloop⟩ : ∃ n ≤ taken.toFinset.card, ∃ fresh,
      Loop taken.contains (· ++ "'") (name ++ "'") n fresh :=
    Loop.exists_of_injective id _ hinjective fun i hi ↦ by simpa using hi
  have hn : n ≤ taken.length := hn.trans taken.toFinset_card_le
  have hfresh : freshPrimed taken name = fresh :=
    hloop.eq_of_fuel (fun _ ↦ rfl) (fun _ _ ↦ rfl) hn
  exact ⟨n, hn, hfresh ▸ hloop⟩

theorem isPrimed_freshPrimed (taken : List String) (name : String) :
    IsPrimed (freshPrimed taken name) := by
  obtain ⟨_, -, hloop⟩ := loop_freshPrimed taken name
  exact hloop.keeps (fun stem _ ↦ ⟨stem, rfl⟩) ⟨name, rfl⟩

theorem freshPrimed_ne (taken : List String) (name : String) : freshPrimed taken name ≠ name := by
  obtain ⟨_, -, hloop⟩ := loop_freshPrimed taken name
  have hlonger : name.length < (freshPrimed taken name).length := by
    refine hloop.keeps (P := fun other ↦ name.length < other.length) (fun other h ↦ ?_) ?_
    · rw [String.length_append]
      exact Nat.lt_add_right _ h
    · rw [String.length_append]
      exact Nat.lt_succ_self _
  intro h
  exact absurd (congrArg String.length h) (Nat.ne_of_gt hlonger)

theorem freshPrimed_not_mem (taken : List String) (name : String) :
    freshPrimed taken name ∉ taken := by
  obtain ⟨_, -, hloop⟩ := loop_freshPrimed taken name
  simpa using hloop.guard_eq_false

/-! ### Looking up images -/

namespace Substitution

@[simp]
theorem get?_nil (x : String) : get? [] x = none := rfl

theorem get?_cons (y x : String) (s : Core) (σ : Substitution) :
    get? ((y, s) :: σ) x = if x = y then some s else get? σ x := by
  unfold get?
  rw [List.lookup_cons]
  by_cases h : x = y
  · simp [h]
  · have hbeq : (x == y) = false := by simpa using h
    rw [hbeq, if_neg h]

@[simp]
theorem get?_single (y x : String) (s : Core) :
    get? (single y s) x = if x = y then some s else none := by
  rw [single, get?_cons, get?_nil]

theorem get?_without (σ : Substitution) (y x : String) :
    get? (without σ y) x = if x = y then none else get? σ x := by
  induction σ with
  | nil => simp [without]
  | cons entry σ ih =>
    obtain ⟨z, s⟩ := entry
    unfold without at ih ⊢
    by_cases hz : z = y
    · subst z
      rw [List.filter_cons_of_neg (by simp), ih, get?_cons]
      by_cases hx : x = y <;> simp [hx]
    · rw [List.filter_cons_of_pos (by simpa using hz), get?_cons, ih, get?_cons]
      by_cases hx : x = y
      · subst x
        simp [Ne.symm hz]
      · simp [hx]

theorem get?_append (σ τ : Substitution) (x : String) :
    get? (σ ++ τ) x = (get? σ x).or (get? τ x) := by
  induction σ with
  | nil => rfl
  | cons entry σ ih =>
    rw [List.cons_append, get?_cons, get?_cons, ih]
    split <;> rfl

theorem get?_insert (σ : Substitution) (y x : String) (s : Core) :
    get? (insert σ y s) x = if x = y then some s else get? σ x := by
  rw [insert, get?_append, get?_without, get?_cons, get?_nil]
  by_cases h : x = y <;> simp [h]

theorem mem_of_get? {σ : Substitution} {x : String} {s : Core} (h : get? σ x = some s) :
    (x, s) ∈ σ := by
  induction σ with
  | nil => simp at h
  | cons entry σ ih =>
    rw [get?_cons] at h
    split at h
    · rename_i hx
      simp only [Option.some.injEq] at h
      subst hx h
      exact List.mem_cons_self
    · exact List.mem_cons_of_mem _ (ih h)

theorem not_captures_iff {σ : Substitution} {x : String} :
    captures σ x = false ↔ ∀ entry ∈ σ, x ∉ entry.2.freeNames := by
  simp [captures, ← Core.occursFree_iff_mem]

theorem mem_freeNames_iff {σ : Substitution} {x : String} :
    x ∈ freeNames σ ↔ ∃ entry ∈ σ, x ∈ entry.2.freeNames := by
  simp [freeNames]

/-- What stands for a name after the substitution. -/
def image (σ : Substitution) (x : String) : Core := (get? σ x).getD (.var x)

@[simp]
theorem image_nil (x : String) : image [] x = .var x := rfl

theorem image_single (y x : String) (s : Core) :
    image (single y s) x = if x = y then s else .var x := by
  rw [image, get?_single]
  split <;> rfl

theorem image_without (σ : Substitution) (y x : String) :
    image (without σ y) x = if x = y then .var x else image σ x := by
  rw [image, get?_without]
  split <;> rfl

theorem image_insert (σ : Substitution) (y x : String) (s : Core) :
    image (insert σ y s) x = if x = y then s else image σ x := by
  rw [image, get?_insert]
  split <;> rfl

/-- Entering a binder keeps its name, unless the name is free in a term that is substituted in the
body; then the binder gets a new primed name. -/
theorem enter_cases (σ : Substitution) (name : String) (body : Core) :
    (enter σ name body = (name, without σ name) ∧
        (name = anonymous ∨ ∀ entry ∈ without σ name, name ∉ entry.2.freeNames)) ∨
      ∃ fresh, enter σ name body = (fresh, insert (without σ name) name (.var fresh)) ∧
        IsPrimed fresh ∧ fresh ≠ name ∧ fresh ∉ body.freeNames ∧
        ∀ entry ∈ without σ name, fresh ∉ entry.2.freeNames := by
  by_cases h : name == anonymous || !captures (without σ name) name
  · left
    refine ⟨by rw [enter, if_pos h], ?_⟩
    rw [Bool.or_eq_true, beq_iff_eq, Bool.not_eq_true', not_captures_iff] at h
    exact h
  · right
    have hfresh := freshPrimed_not_mem (freeNames (without σ name) ++ body.freeNames) name
    rw [List.mem_append, not_or, mem_freeNames_iff] at hfresh
    refine ⟨_, by rw [enter, if_neg h], isPrimed_freshPrimed _ _, freshPrimed_ne _ _,
      hfresh.2, ?_⟩
    intro entry hentry hmem
    exact hfresh.1 ⟨entry, hentry, hmem⟩

theorem enter_name (σ : Substitution) (name : String) (body : Core) :
    (enter σ name body).1 = name ∨ IsPrimed (enter σ name body).1 := by
  rcases enter_cases σ name body with ⟨h, -⟩ | ⟨fresh, h, hprimed, -⟩
  · exact .inl (by rw [h])
  · exact .inr (by rw [h]; exact hprimed)

/-- Inside the binder its name stands for the new binder, and all other names for what they stand
for outside. -/
theorem image_enter (σ : Substitution) (name : String) (body : Core) (x : String) :
    image (enter σ name body).2 x =
      if x = name then .var (enter σ name body).1 else image σ x := by
  rcases enter_cases σ name body with ⟨h, -⟩ | ⟨fresh, h, -⟩
  · rw [h, image_without]
    by_cases hx : x = name <;> simp [hx]
  · rw [h, image_insert, image_without]
    by_cases hx : x = name <;> simp [hx]

/-- The new binder captures nothing that is substituted in its body. The anonymous binder is never
renamed, so for it this has to be known. -/
theorem enter_not_mem_image {σ : Substitution} {name : String} {body : Core} {x : String}
    (hanonymous : name = anonymous → anonymous ∉ (image σ x).freeNames)
    (hx : x ∈ body.freeNames) (hne : x ≠ name) :
    (enter σ name body).1 ∉ (image σ x).freeNames := by
  have himage (b : String) (hb : b ≠ x)
      (hentry : ∀ entry ∈ without σ name, b ∉ entry.2.freeNames) :
      b ∉ (image σ x).freeNames := by
    cases hget : get? σ x with
    | none => simpa [image, hget, Core.freeNames] using hb
    | some s =>
      have hmem : (x, s) ∈ without σ name := by
        apply mem_of_get?
        rw [get?_without, if_neg hne, hget]
      simpa [image, hget] using hentry _ hmem
  rcases enter_cases σ name body with ⟨h, rfl | hentry⟩ | ⟨fresh, h, -, -, hbody, hentry⟩
  · rw [h]
    exact hanonymous rfl
  · rw [h]
    exact himage name (Ne.symm hne) hentry
  · rw [h]
    refine himage fresh ?_ hentry
    rintro rfl
    exact hbody hx

theorem enter_ne_anonymous {σ : Substitution} {name : String} {body : Core}
    (h : name ≠ anonymous) : (enter σ name body).1 ≠ anonymous := by
  rcases enter_name σ name body with hname | hprimed
  · rwa [hname]
  · exact hprimed.ne_anonymous

/-- No anonymous variable is substituted for a name. -/
def AvoidsAnonymous (σ : Substitution) : Prop :=
  ∀ x, x ≠ anonymous → anonymous ∉ (image σ x).freeNames

theorem AvoidsAnonymous.single {s : Core} (h : anonymous ∉ s.freeNames) (name : String) :
    AvoidsAnonymous (single name s) := by
  intro x hx
  rw [image_single]
  split
  · exact h
  · simpa [Core.freeNames] using Ne.symm hx

theorem AvoidsAnonymous.without {σ : Substitution} (h : AvoidsAnonymous σ) (name : String) :
    AvoidsAnonymous (without σ name) := by
  intro x hx
  rw [image_without]
  split
  · simpa [Core.freeNames] using Ne.symm hx
  · exact h x hx

theorem AvoidsAnonymous.enter {σ : Substitution} (h : AvoidsAnonymous σ)
    (name : String) (body : Core) : AvoidsAnonymous (enter σ name body).2 := by
  intro x hx
  rw [image_enter]
  split
  · rename_i hname
    subst hname
    simpa [Core.freeNames] using Ne.symm (enter_ne_anonymous hx)
  · exact h x hx

/-- Names that come out of the scope of a binder. -/
theorem mem_image_of_enter {σ : Substitution} {name : String} {body : Core} {x : String}
    (h : ∃ y ∈ body.freeNames, x ∈ (image (enter σ name body).2 y).freeNames)
    (hx : x ≠ (enter σ name body).1) :
    ∃ y ∈ body.freeNames.filter (· != name), x ∈ (image σ y).freeNames := by
  obtain ⟨y, hy, hmem⟩ := h
  rw [image_enter] at hmem
  split at hmem
  · simp only [Core.freeNames, List.mem_singleton] at hmem
    exact absurd hmem hx
  · rename_i hne
    exact ⟨y, by simpa [hne] using hy, hmem⟩

end Substitution

/-! ### Free names of a substituted term -/

@[simp]
theorem Core.subst_nil (t : Core) : t.subst [] = t := by
  unfold Core.subst
  rfl

theorem Core.subst_var (σ : Substitution) (x : String) :
    (Core.var x).subst σ = Substitution.image σ x := by
  cases σ with
  | nil => rfl
  | cons entry σ => rfl

mutual

/-- A name that is free after a substitution is free in the image of a name that was free before. -/
theorem Core.mem_freeNames_subst {x : String} :
    (t : Core) → (σ : Substitution) → x ∈ (t.subst σ).freeNames →
      ∃ y ∈ t.freeNames, x ∈ (Substitution.image σ y).freeNames
  | t, [], h => ⟨x, by simpa using h, by simp [Core.freeNames]⟩
  | .univ _, _ :: _, h | .const _, _ :: _, h => by
    simp [Core.subst, Core.freeNames] at h
  | .quant _ _ domain name codomain, entry :: σ, h => by
    simp only [Core.subst, List.isEmpty_cons, Bool.false_eq_true, ↓reduceIte, Core.freeNames,
      List.mem_append, List.mem_filter, bne_iff_ne] at h
    rcases h with h | ⟨h, hx⟩
    · obtain ⟨y, hy, hmem⟩ := domain.mem_freeNames_subst _ h
      exact ⟨y, List.mem_append_left _ hy, hmem⟩
    · obtain ⟨y, hy, hmem⟩ :=
        Substitution.mem_image_of_enter (codomain.mem_freeNames_subst _ h) hx
      exact ⟨y, List.mem_append_right _ hy, hmem⟩
  | .signature members, entry :: σ, h => members.mem_freeNames_subst _ h
  | .lam param _ body, entry :: σ, h => by
    simp only [Core.subst, List.isEmpty_cons, Bool.false_eq_true, ↓reduceIte, Core.freeNames,
      List.mem_filter, bne_iff_ne] at h
    exact Substitution.mem_image_of_enter (body.mem_freeNames_subst _ h.1) h.2
  | .record members, entry :: σ, h => Core.mem_freeNamesMembers_substMembers members _ h
  | .app _ type operator operand, entry :: σ, h => by
    simp only [Core.subst, List.isEmpty_cons, Bool.false_eq_true, ↓reduceIte, Core.freeNames,
      List.mem_append] at h
    simp only [Core.freeNames, List.mem_append]
    rcases h with (h | h) | h
    · obtain ⟨y, hy, hmem⟩ := type.mem_freeNames_subst _ h
      exact ⟨y, .inl (.inl hy), hmem⟩
    · obtain ⟨y, hy, hmem⟩ := operator.mem_freeNames_subst _ h
      exact ⟨y, .inl (.inr hy), hmem⟩
    · obtain ⟨y, hy, hmem⟩ := operand.mem_freeNames_subst _ h
      exact ⟨y, .inr hy, hmem⟩
  | .proj _ type operator _, entry :: σ, h => by
    simp only [Core.subst, List.isEmpty_cons, Bool.false_eq_true, ↓reduceIte, Core.freeNames,
      List.mem_append] at h
    simp only [Core.freeNames, List.mem_append]
    rcases h with h | h
    · obtain ⟨y, hy, hmem⟩ := type.mem_freeNames_subst _ h
      exact ⟨y, .inl hy, hmem⟩
    · obtain ⟨y, hy, hmem⟩ := operator.mem_freeNames_subst _ h
      exact ⟨y, .inr hy, hmem⟩
  | .var name, entry :: σ, h => ⟨name, by simp [Core.freeNames], h⟩

theorem Telescope.mem_freeNames_subst {x : String} :
    (t : Telescope) → (σ : Substitution) → x ∈ (t.subst σ).freeNames →
      ∃ y ∈ t.freeNames, x ∈ (Substitution.image σ y).freeNames
  | .nil, _, h => by simp [Telescope.subst, Telescope.freeNames] at h
  | .cons _ type name rest, σ, h => by
    simp only [Telescope.subst, Telescope.freeNames, List.mem_append, List.mem_filter,
      bne_iff_ne] at h
    rcases h with h | ⟨h, hx⟩
    · obtain ⟨y, hy, hmem⟩ := type.mem_freeNames_subst _ h
      exact ⟨y, List.mem_append_left _ hy, hmem⟩
    · obtain ⟨y, hy, hmem⟩ := rest.mem_freeNames_subst _ h
      rw [Substitution.image_without] at hmem
      split at hmem
      · rename_i hname
        simp only [Core.freeNames, List.mem_singleton] at hmem
        exact absurd (hmem.trans hname) hx
      · rename_i hname
        exact ⟨y, List.mem_append_right _ (by simpa [hname] using hy), hmem⟩

theorem Core.mem_freeNamesMembers_substMembers {x : String} :
    (ts : List Core) → (σ : Substitution) →
      x ∈ Core.freeNamesMembers (Core.substMembers σ ts) →
      ∃ y ∈ Core.freeNamesMembers ts, x ∈ (Substitution.image σ y).freeNames
  | [], _, h => by simp [Core.substMembers, Core.freeNamesMembers] at h
  | m :: ms, σ, h => by
    simp only [Core.substMembers, Core.freeNamesMembers, List.mem_append] at h
    rcases h with h | h
    · obtain ⟨y, hy, hmem⟩ := m.mem_freeNames_subst _ h
      exact ⟨y, List.mem_append_left _ hy, hmem⟩
    · obtain ⟨y, hy, hmem⟩ := Core.mem_freeNamesMembers_substMembers ms _ h
      exact ⟨y, List.mem_append_right _ hy, hmem⟩

end

/-! ### Names of a substituted term -/

namespace Substitution

/-- The names that a substitution may bring into a term: those of the substituted terms, and primed
names for renamed binders and their variables. -/
def Supplies (σ : Substitution) (r : NameRole) (x : String) : Prop :=
  (∃ entry ∈ σ, (r, x) ∈ entry.2.names) ∨ (r ≠ .label ∧ IsPrimed x)

theorem Supplies.of_without {σ : Substitution} {name : String} {r : NameRole} {x : String}
    (h : Supplies (without σ name) r x) : Supplies σ r x := by
  rcases h with ⟨entry, hentry, hmem⟩ | h
  · exact .inl ⟨entry, (List.mem_filter.mp hentry).1, hmem⟩
  · exact .inr h

theorem Supplies.of_enter {σ : Substitution} {name : String} {body : Core} {r : NameRole}
    {x : String} (h : Supplies (enter σ name body).2 r x) : Supplies σ r x := by
  rcases enter_cases σ name body with ⟨henter, -⟩ | ⟨fresh, henter, hprimed, -⟩
  · rw [henter] at h
    exact h.of_without
  · rw [henter] at h
    rcases h with ⟨entry, hentry, hmem⟩ | h
    · simp only [insert, List.mem_append, List.mem_singleton] at hentry
      rcases hentry with hentry | rfl
      · exact Supplies.of_without (.inl ⟨entry, (List.mem_filter.mp hentry).1, hmem⟩)
      · simp only [Core.names, List.mem_singleton, Prod.mk.injEq] at hmem
        obtain ⟨rfl, rfl⟩ := hmem
        exact .inr ⟨by simp, hprimed⟩
    · exact .inr h

theorem Supplies.of_binder {σ : Substitution} {name : String} {body : Core} {r : NameRole}
    {x : String} (h : (r, x) = (.binder, (enter σ name body).1)) :
    (r, x) = (.binder, name) ∨ Supplies σ r x := by
  obtain ⟨rfl, rfl⟩ := Prod.mk.inj h
  rcases enter_name σ name body with hname | hprimed
  · exact .inl (by rw [hname])
  · exact .inr (.inr ⟨by simp, hprimed⟩)

end Substitution

mutual

theorem Core.mem_names_subst {r : NameRole} {x : String} :
    (t : Core) → (σ : Substitution) → (r, x) ∈ (t.subst σ).names →
      (r, x) ∈ t.names ∨ Substitution.Supplies σ r x
  | t, [], h => .inl (by simpa using h)
  | .univ _, _ :: _, h | .const _, _ :: _, h => by
    simp [Core.subst, Core.names] at h
  | .quant _ _ domain name codomain, entry :: σ, h => by
    simp only [Core.subst, List.isEmpty_cons, Bool.false_eq_true, ↓reduceIte, Core.names,
      List.mem_append, List.mem_cons] at h
    simp only [Core.names, List.mem_append, List.mem_cons]
    rcases h with h | h | h
    · have := domain.mem_names_subst _ h
      tauto
    · have := Substitution.Supplies.of_binder h
      tauto
    · have := (codomain.mem_names_subst _ h).imp_right Substitution.Supplies.of_enter
      tauto
  | .signature members, entry :: σ, h => members.mem_names_subst _ h
  | .lam param _ body, entry :: σ, h => by
    simp only [Core.subst, List.isEmpty_cons, Bool.false_eq_true, ↓reduceIte, Core.names,
      List.mem_cons] at h
    simp only [Core.names, List.mem_cons]
    rcases h with h | h
    · have := Substitution.Supplies.of_binder h
      tauto
    · have := (body.mem_names_subst _ h).imp_right Substitution.Supplies.of_enter
      tauto
  | .record members, entry :: σ, h => Core.mem_namesMembers_substMembers members _ h
  | .app _ type operator operand, entry :: σ, h => by
    have ht := type.mem_names_subst (r := r) (x := x) (entry :: σ)
    have ho := operator.mem_names_subst (r := r) (x := x) (entry :: σ)
    have ha := operand.mem_names_subst (r := r) (x := x) (entry :: σ)
    simp only [Core.subst, List.isEmpty_cons, Bool.false_eq_true, ↓reduceIte, Core.names,
      List.mem_append] at h
    simp only [Core.names, List.mem_append]
    tauto
  | .proj _ type operator _, entry :: σ, h => by
    have ht := type.mem_names_subst (r := r) (x := x) (entry :: σ)
    have ho := operator.mem_names_subst (r := r) (x := x) (entry :: σ)
    simp only [Core.subst, List.isEmpty_cons, Bool.false_eq_true, ↓reduceIte, Core.names,
      List.mem_append] at h
    simp only [Core.names, List.mem_append]
    tauto
  | .var name, entry :: σ, h => by
    rw [Core.subst_var, Substitution.image] at h
    cases hget : Substitution.get? (entry :: σ) name with
    | none => exact .inl (by simpa [hget] using h)
    | some s =>
      exact .inr (.inl ⟨_, Substitution.mem_of_get? hget, by simpa [hget] using h⟩)

theorem Telescope.mem_names_subst {r : NameRole} {x : String} :
    (t : Telescope) → (σ : Substitution) → (r, x) ∈ (t.subst σ).names →
      (r, x) ∈ t.names ∨ Substitution.Supplies σ r x
  | .nil, _, h => by simp [Telescope.subst, Telescope.names] at h
  | .cons _ type name rest, σ, h => by
    have ht := type.mem_names_subst (r := r) (x := x) σ
    have hr := rest.mem_names_subst (r := r) (x := x) (Substitution.without σ name)
    have hout : Substitution.Supplies (Substitution.without σ name) r x → _ :=
      Substitution.Supplies.of_without
    simp only [Telescope.subst, Telescope.names, List.mem_append, List.mem_cons] at h
    simp only [Telescope.names, List.mem_append, List.mem_cons]
    tauto

theorem Core.mem_namesMembers_substMembers {r : NameRole} {x : String} :
    (ts : List Core) → (σ : Substitution) →
      (r, x) ∈ Core.namesMembers (Core.substMembers σ ts) →
      (r, x) ∈ Core.namesMembers ts ∨ Substitution.Supplies σ r x
  | [], _, h => by simp [Core.substMembers, Core.namesMembers] at h
  | m :: ms, σ, h => by
    have hm := m.mem_names_subst (r := r) (x := x) σ
    have hms := Core.mem_namesMembers_substMembers (r := r) (x := x) ms σ
    simp only [Core.substMembers, Core.namesMembers, List.mem_append] at h
    simp only [Core.namesMembers, List.mem_append]
    tauto

end

end RankedTT
