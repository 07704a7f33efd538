import RankedTT.Proofs.Alike
import RankedTT.Proofs.Meaning

/-!
Free variables of nameless forms. The nameless form of a term has the free names of the term, and
what a substitution makes of them can be read off there. Two results about named terms follow: where
no label captures a name, substitution of terms for names is capture-avoiding and simultaneous; and
to agree up to the names of binders is to have the same nameless form, which is an equivalence that
keeps the free names.
-/

set_option autoImplicit false
set_option relaxedAutoImplicit false

namespace RankedTT

/-! ### Free names -/

namespace Nameless

/-- The names of the free variables, with repetitions. -/
def freeNames : Nameless → List String
  | univ _ | nil | const _ => []
  | quant _ _ domain codomain => domain.freeNames ++ codomain.freeNames
  | signature members => members.freeNames
  | declare _ type _ rest => type.freeNames ++ rest.freeNames
  | lam body => body.freeNames
  | record members => members.freeNames
  | cons head tail => head.freeNames ++ tail.freeNames
  | app _ type operator operand => type.freeNames ++ operator.freeNames ++ operand.freeNames
  | proj _ type operator _ => type.freeNames ++ operator.freeNames
  | var (.bound _) => []
  | var (.free x) => [x]

@[simp]
theorem freeNames_rename (t : Nameless) (r : Nat → Nat) : (t.rename r).freeNames = t.freeNames := by
  induction t generalizing r with
  | var ref => cases ref <;> rfl
  | _ => simp_all [rename, freeNames]

@[simp]
theorem freeNames_shift (t : Nameless) : t.shift.freeNames = t.freeNames := freeNames_rename t _

/-- Bound variables stay without names below a binder. -/
theorem freeNames_lift_bound {τ : Ref → Nameless} (h : ∀ i, (τ (.bound i)).freeNames = [])
    (i : Nat) :
    (lift τ (.bound i)).freeNames = [] := by
  cases i with
  | zero => rfl
  | succ i => rw [lift, freeNames_shift, h i]

/-- If names are substituted for free variables only, then the free names are those of what the free
names stand for. -/
theorem freeNames_subst (t : Nameless) {τ : Ref → Nameless}
    (h : ∀ i, (τ (.bound i)).freeNames = []) :
    (t.subst τ).freeNames = t.freeNames.flatMap fun x ↦ (τ (.free x)).freeNames := by
  induction t generalizing τ with
  | var ref =>
    cases ref with
    | bound i => exact h i
    | free x => simp [subst, freeNames]
  | quant _ _ _ _ ihdomain ihcodomain =>
    simp [subst, freeNames, ihdomain h, ihcodomain (freeNames_lift_bound h), lift]
  | declare _ _ _ _ ihtype ihrest =>
    simp [subst, freeNames, ihtype h, ihrest (freeNames_lift_bound h), lift]
  | lam _ ih => simp [subst, freeNames, ih (freeNames_lift_bound h), lift]
  | _ => simp_all [subst, freeNames]

end Nameless

theorem Ref.ofName_of_not_mem {scope : List String} {x : String} (h : x ∉ scope) :
    Ref.ofName scope x = .free x := by
  induction scope with
  | nil => rfl
  | cons y scope ih =>
    obtain ⟨hne, hx⟩ := not_or.mp (mt List.mem_cons.mpr h)
    rw [ofName_cons_of_ne hne, ih hx]
    rfl

theorem Ref.exists_ofName_of_mem {scope : List String} {x : String} (h : x ∈ scope) :
    ∃ i, Ref.ofName scope x = .bound i := by
  induction scope with
  | nil => cases h
  | cons y scope ih =>
    by_cases hxy : x = y
    · exact ⟨0, by rw [hxy, ofName_cons_self]⟩
    · obtain ⟨i, hi⟩ := ih (List.mem_of_ne_of_mem hxy h)
      exact ⟨i + 1, by rw [ofName_cons_of_ne hxy, hi]; rfl⟩

/-- The names that are free outside one more binder. -/
theorem filter_not_mem_cons (names scope : List String) (name : String) :
    (names.filter fun x ↦ x ∉ name :: scope) =
      (names.filter (· != name)).filter fun x ↦ x ∉ scope := by
  rw [List.filter_filter]
  refine List.filter_congr fun x _ ↦ ?_
  by_cases hx : x = name <;> simp [hx]

mutual

/-- The nameless form of a term in a scope has the free names that are not in the scope. -/
theorem Core.freeNames_nameless : (t : Core) → (scope : List String) →
    (t.nameless scope).freeNames = t.freeNames.filter fun x ↦ x ∉ scope
  | .univ _, _ | .const _, _ => rfl
  | .quant _ _ domain name codomain, scope => by
    simp only [Core.nameless, Nameless.freeNames, Core.freeNames, List.filter_append,
      domain.freeNames_nameless scope, codomain.freeNames_nameless (name :: scope),
      filter_not_mem_cons]
  | .signature members, scope => members.freeNames_nameless scope
  | .lam param _ body, scope => by
    simp only [Core.nameless, Nameless.freeNames, Core.freeNames,
      body.freeNames_nameless (param :: scope), filter_not_mem_cons]
  | .record members, scope => Core.freeNames_namelessMembers members scope
  | .app _ type operator operand, scope => by
    simp only [Core.nameless, Nameless.freeNames, Core.freeNames, List.filter_append,
      type.freeNames_nameless scope, operator.freeNames_nameless scope,
      operand.freeNames_nameless scope]
  | .proj _ type operator _, scope => by
    simp only [Core.nameless, Nameless.freeNames, Core.freeNames, List.filter_append,
      type.freeNames_nameless scope, operator.freeNames_nameless scope]
  | .var x, scope => by
    rw [Core.nameless, Core.freeNames]
    by_cases hx : x ∈ scope
    · obtain ⟨i, hi⟩ := Ref.exists_ofName_of_mem hx
      simp [hi, hx, Nameless.freeNames]
    · simp [Ref.ofName_of_not_mem hx, hx, Nameless.freeNames]

theorem Telescope.freeNames_nameless : (t : Telescope) → (scope : List String) →
    (t.nameless scope).freeNames = t.freeNames.filter fun x ↦ x ∉ scope
  | .nil, _ => rfl
  | .cons _ type name rest, scope => by
    simp only [Telescope.nameless, Nameless.freeNames, Telescope.freeNames, List.filter_append,
      type.freeNames_nameless scope, rest.freeNames_nameless (name :: scope), filter_not_mem_cons]

theorem Core.freeNames_namelessMembers : (ts : List Core) → (scope : List String) →
    (Core.namelessMembers scope ts).freeNames = (Core.freeNamesMembers ts).filter fun x ↦ x ∉ scope
  | [], _ => rfl
  | m :: ms, scope => by
    simp only [Core.namelessMembers, Nameless.freeNames, Core.freeNamesMembers, List.filter_append,
      m.freeNames_nameless scope, Core.freeNames_namelessMembers ms scope]

end

theorem Core.freeNames_nameless_nil (t : Core) : (t.nameless []).freeNames = t.freeNames := by
  rw [t.freeNames_nameless, List.filter_eq_self]
  simp

/-- The free names of an instance are those of what the free names stand for. -/
theorem Core.IsInstanceOf.freeNames_eq {s t : Core} {σ : Substitution} (h : s.IsInstanceOf t σ) :
    s.freeNames = t.freeNames.flatMap fun x ↦ (σ.image x).freeNames := by
  have hbound : ∀ i, (Nameless.named σ.image (.bound i)).freeNames = [] := fun _ ↦ rfl
  calc s.freeNames
      = ((t.nameless []).subst (Nameless.named σ.image)).freeNames := by
        rw [← s.freeNames_nameless_nil, h, Core.meaning]
    _ = t.freeNames.flatMap fun x ↦ ((σ.image x).nameless []).freeNames := by
        rw [Nameless.freeNames_subst _ hbound, t.freeNames_nameless_nil]
        rfl
    _ = t.freeNames.flatMap fun x ↦ (σ.image x).freeNames := by
        simp only [Core.freeNames_nameless_nil]

/-- What stands for a name is its image, or the name itself if it has none. -/
theorem Substitution.exists_image_iff {σ : Substitution} {names : List String} (P : Core → Prop) :
    (∃ y ∈ names, P (σ.image y)) ↔
      (∃ y ∈ names, P (.var y) ∧ σ.get? y = none) ∨
        ∃ y s, y ∈ names ∧ σ.get? y = some s ∧ P s := by
  constructor
  · rintro ⟨y, hy, hP⟩
    cases hget : σ.get? y with
    | none => exact .inl ⟨y, hy, by simpa [image, hget] using hP, hget⟩
    | some s => exact .inr ⟨y, s, hy, hget, by simpa [image, hget] using hP⟩
  · rintro (⟨y, hy, hP, hget⟩ | ⟨y, s, hy, hget, hP⟩)
    · exact ⟨y, hy, by simpa [image, hget] using hP⟩
    · exact ⟨y, hy, by simpa [image, hget] using hP⟩

/-- No image mentions the anonymous name, whatever it is the image of. -/
theorem Substitution.AvoidsAnonymous.of_entries {σ : Substitution}
    (h : ∀ entry ∈ σ, anonymous ∉ entry.2.freeNames) : σ.AvoidsAnonymous := by
  intro x hx
  cases hget : σ.get? x with
  | none => simpa [image, hget, Core.freeNames] using Ne.symm hx
  | some s => simpa [image, hget] using h _ (mem_of_get? hget)

/-! ### Constants -/

/-- Below a binder its name stands for a variable, which brings no constants. -/
theorem exists_constants_below {image image' : String → Core} {name name' : String}
    (h : ∀ y, image' y = if y = name then .var name' else image y) (xs : List String) (v : Value) :
    (∃ y ∈ xs, v ∈ (image' y).constants) ↔
      ∃ y ∈ xs.filter (· != name), v ∈ (image y).constants := by
  constructor
  · rintro ⟨y, hy, hv⟩
    rw [h] at hv
    split at hv
    · simp [Core.constants] at hv
    · rename_i hne
      exact ⟨y, by simpa [hne] using hy, hv⟩
  · rintro ⟨y, hy, hv⟩
    obtain ⟨hy, hne⟩ := List.mem_filter.mp hy
    refine ⟨y, hy, ?_⟩
    rwa [h, if_neg (by simpa using hne)]

mutual

/-- Constants are opaque to a substitution: those of the term stay as they are, and those of the
images of its free names come in. -/
theorem Core.mem_constants_subst (v : Value) : (t : Core) → (σ : Substitution) →
    (v ∈ (t.subst σ).constants ↔
      v ∈ t.constants ∨ ∃ y ∈ t.freeNames, v ∈ (σ.image y).constants)
  | t, [] => by simp [Core.constants]
  | .univ _, _ :: _ | .const _, _ :: _ => by simp [Core.subst, Core.constants, Core.freeNames]
  | .quant _ _ domain name codomain, entry :: σ => by
    simp only [Core.subst, List.isEmpty_cons, Bool.false_eq_true, ↓reduceIte, Core.constants,
      Core.freeNames, List.mem_append, or_and_right, exists_or, domain.mem_constants_subst v,
      codomain.mem_constants_subst v, exists_constants_below (Substitution.image_enter _ _ _)]
    exact or_or_or_comm
  | .signature members, entry :: σ => members.mem_constants_subst v _
  | .lam param _ body, entry :: σ => by
    simp only [Core.subst, List.isEmpty_cons, Bool.false_eq_true, ↓reduceIte, Core.constants,
      Core.freeNames, body.mem_constants_subst v,
      exists_constants_below (Substitution.image_enter _ _ _)]
  | .record members, entry :: σ => Core.mem_constantsMembers_substMembers v members _
  | .app _ type operator operand, entry :: σ => by
    simp only [Core.subst, List.isEmpty_cons, Bool.false_eq_true, ↓reduceIte, Core.constants,
      Core.freeNames, List.mem_append, or_and_right, exists_or, type.mem_constants_subst v,
      operator.mem_constants_subst v, operand.mem_constants_subst v]
    exact (or_congr_left or_or_or_comm).trans or_or_or_comm
  | .proj _ type operator _, entry :: σ => by
    simp only [Core.subst, List.isEmpty_cons, Bool.false_eq_true, ↓reduceIte, Core.constants,
      Core.freeNames, List.mem_append, or_and_right, exists_or, type.mem_constants_subst v,
      operator.mem_constants_subst v]
    exact or_or_or_comm
  | .var x, entry :: σ => by simp [Core.subst_var, Core.constants, Core.freeNames]

theorem Telescope.mem_constants_subst (v : Value) : (t : Telescope) → (σ : Substitution) →
    (v ∈ (t.subst σ).constants ↔
      v ∈ t.constants ∨ ∃ y ∈ t.freeNames, v ∈ (σ.image y).constants)
  | .nil, _ => by simp [Telescope.subst, Telescope.constants, Telescope.freeNames]
  | .cons _ type name rest, σ => by
    have himage (y : String) :
        (Substitution.without σ name).image y = if y = name then .var name else σ.image y := by
      rw [Substitution.image_without]
      split <;> simp_all
    simp only [Telescope.subst, Telescope.constants, Telescope.freeNames, List.mem_append,
      or_and_right, exists_or, type.mem_constants_subst v, rest.mem_constants_subst v,
      exists_constants_below himage]
    exact or_or_or_comm

theorem Core.mem_constantsMembers_substMembers (v : Value) :
    (ts : List Core) → (σ : Substitution) →
    (v ∈ Core.constantsMembers (Core.substMembers σ ts) ↔ v ∈ Core.constantsMembers ts ∨
      ∃ y ∈ Core.freeNamesMembers ts, v ∈ (σ.image y).constants)
  | [], _ => by simp [Core.substMembers, Core.constantsMembers, Core.freeNamesMembers]
  | m :: ms, σ => by
    simp only [Core.substMembers, Core.constantsMembers, Core.freeNamesMembers, List.mem_append,
      or_and_right, exists_or, m.mem_constants_subst v,
      Core.mem_constantsMembers_substMembers v ms]
    exact or_or_or_comm

end

/-! ### Substitution and equality up to the names of binders -/

/-- Substitution is simultaneous and avoids capture, unless the anonymous binder or a label does
capture something: the nameless form of the result is that of the term, with the nameless forms of
the images for the free variables that have one. So a name is free in the result if it was free
before and has no image, or if it is free in the image of a name that was free. The constants are
those of the term and of these images. -/
theorem Core.subst_avoidsCapture (t : Core) (σ : Substitution)
    (hanonymous : ∀ entry ∈ σ, entry.2.occursFree anonymous = false)
    (hlabels : ∀ l, (.label, l) ∈ t.names →
      (∀ entry ∈ σ, entry.2.occursFree l = false) ∧ ¬ IsPrimed l) :
    (t.subst σ).nameless [] = (t.nameless []).subst (Nameless.named σ.image) ∧
      (∀ x, (t.subst σ).occursFree x = true ↔
        (t.occursFree x = true ∧ σ.get? x = none) ∨
          ∃ y s, t.occursFree y = true ∧ σ.get? y = some s ∧ s.occursFree x = true) ∧
      ∀ v, v ∈ (t.subst σ).constants ↔
        v ∈ t.constants ∨
          ∃ y s, t.occursFree y = true ∧ σ.get? y = some s ∧ v ∈ s.constants := by
  have hfree {x : String} {s : Core} : s.occursFree x = false ↔ x ∉ s.freeNames := by
    rw [← s.occursFree_iff_mem, Bool.not_eq_true]
  have hinstance : (t.subst σ).IsInstanceOf t σ := by
    refine t.subst_isInstanceOf (.of_entries fun entry hentry ↦ ?_) fun l hl ↦ ?_
    · exact hfree.mp (hanonymous entry hentry)
    · exact ⟨(hlabels l hl).2, fun entry hentry ↦ hfree.mp ((hlabels l hl).1 entry hentry)⟩
  simp only [Core.occursFree_iff_mem]
  refine ⟨hinstance, fun x ↦ ?_, fun v ↦ ?_⟩
  · rw [hinstance.freeNames_eq, List.mem_flatMap,
      Substitution.exists_image_iff (x ∈ ·.freeNames)]
    simp [Core.freeNames, eq_comm]
  · rw [t.mem_constants_subst, Substitution.exists_image_iff (v ∈ ·.constants)]
    simp [Core.constants]

/-- Two names are exchanged below a binder of one of these names, which has to be renamed. -/
theorem Core.subst_avoidsCapture_exchange :
    let t : Core := .lam "y" none (.app 0 (.signature (.cons 1 (.var "x") "l"
      (.cons 0 (.var "l") "m" .nil))) (.var "x") (.var "y"))
    let σ : Substitution := [("x", .var "y"), ("y", .var "x")]
    (∀ entry ∈ σ, entry.2.occursFree anonymous = false) ∧
      (∀ l, (.label, l) ∈ t.names →
        (∀ entry ∈ σ, entry.2.occursFree l = false) ∧ ¬ IsPrimed l) ∧
      t.subst σ = .lam "y'" none (.app 0 (.signature (.cons 1 (.var "y") "l"
        (.cons 0 (.var "l") "m" .nil))) (.var "y") (.var "y'")) ∧
      (t.subst σ).nameless [] = (t.nameless []).subst (Nameless.named σ.image) ∧
      ∀ x, (t.subst σ).occursFree x = true ↔
        (t.occursFree x = true ∧ σ.get? x = none) ∨
          ∃ y s, t.occursFree y = true ∧ σ.get? y = some s ∧ s.occursFree x = true := by
  intro t σ
  have hanonymous : ∀ entry ∈ σ, entry.2.occursFree anonymous = false := by decide
  have hlabels : ∀ l, (.label, l) ∈ t.names →
      (∀ entry ∈ σ, entry.2.occursFree l = false) ∧ ¬ IsPrimed l := by
    intro l hl
    have hl : l = "l" ∨ l = "m" := by simpa [t, Core.names, Telescope.names] using hl
    rcases hl with rfl | rfl
    · exact ⟨by decide, fun h ↦ absurd h.getLast?_eq (by decide)⟩
    · exact ⟨by decide, fun h ↦ absurd h.getLast?_eq (by decide)⟩
  obtain ⟨hform, hfree, -⟩ := Core.subst_avoidsCapture t σ hanonymous hlabels
  exact ⟨hanonymous, hlabels, rfl, hform, hfree⟩

/-- Terms agree up to the names of binders exactly if they have the same nameless form, in which
constants are compared by the equality of values. So this is an equivalence of core terms, and terms
that agree have the same free names. -/
theorem Core.alphaEq_isNamelessEquality :
    (∀ s t : Core, s.alphaEq t = true ↔ s.nameless [] = t.nameless []) ∧
      (∀ v w : Value, (Core.const v).nameless [] = (Core.const w).nameless [] ↔
        (v == w) = true) ∧
      Equivalence (fun s t : Core ↦ s.alphaEq t = true) ∧
      ∀ s t : Core, s.alphaEq t = true → ∀ x, s.occursFree x = t.occursFree x := by
  refine ⟨Core.alphaEq_iff, fun v w ↦ ?_, ⟨fun t ↦ ?_, ?_, ?_⟩, fun s t h x ↦ ?_⟩
  · simp [Core.nameless, Value.beq_iff]
  · exact (Core.alphaEq_iff t t).mpr rfl
  · intro s t h
    exact (Core.alphaEq_iff t s).mpr ((Core.alphaEq_iff s t).mp h).symm
  · intro s t u hst htu
    exact (Core.alphaEq_iff s u).mpr
      (((Core.alphaEq_iff s t).mp hst).trans ((Core.alphaEq_iff t u).mp htu))
  · have hnames : s.freeNames = t.freeNames := by
      rw [← s.freeNames_nameless_nil, (Core.alphaEq_iff s t).mp h, t.freeNames_nameless_nil]
    rw [Bool.eq_iff_iff, Core.occursFree_iff_mem, Core.occursFree_iff_mem, hnames]

/-- The names of two nested binders are exchanged; the names of members are kept. -/
theorem Core.alphaEq_isNamelessEquality_exchange :
    let s : Core := .lam "x" none (.quant .universal 1 (.var "x") "y" (.signature
      (.cons 0 (.var "x") "l" (.cons 0 (.app 0 (.var "F") (.var "f") (.var "l")) "y" .nil))))
    let t : Core := .lam "y" (some 3) (.quant .universal 1 (.var "y") "x" (.signature
      (.cons 0 (.var "y") "l" (.cons 0 (.app 0 (.var "F") (.var "f") (.var "l")) "y" .nil))))
    s.alphaEq t = true ∧ s.nameless [] = t.nameless [] ∧
      ∀ x, s.occursFree x = t.occursFree x := by
  intro s t
  have halpha : s.alphaEq t = true := by decide
  obtain ⟨hform, -, -, hfree⟩ := Core.alphaEq_isNamelessEquality
  exact ⟨halpha, (hform s t).mp halpha, hfree s t halpha⟩

end RankedTT
