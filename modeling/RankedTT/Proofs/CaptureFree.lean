import RankedTT.Proofs.NormalNames

/-!
No capture in normalization. Binders that keep their name cannot capture a name that is in scope,
and generated names are larger than all that occur, if generated names and the anonymous name are
left to the program: no variable is anonymous, and every generated name that occurs has a number
below the counter. Normalization keeps both, for the term and for the environment.
-/

set_option autoImplicit false
set_option relaxedAutoImplicit false

namespace RankedTT

theorem not_isPrimed_generatedName (k : Nat) : ¬ IsPrimed (generatedName k) := by
  intro h
  have hlast : Char.ofNat 39 ∈ (generatedName k).toList := List.mem_of_getLast? h.getLast?_eq
  simp only [generatedName, String.toList_append, List.mem_append,
    Nat.toString_eq_ofList_toDigits, String.toList_ofList] at hlast
  rcases hlast with hlast | hlast
  · revert hlast
    decide
  · have hdigit := Nat.isDigit_of_mem_toDigits (b := 10) (by decide) (by decide) hlast
    revert hdigit
    decide

/-- No variable is anonymous, and generated names have numbers below `c`. -/
structure Core.NamesBelow (c : Nat) (t : Core) : Prop where
  named : (.reference, anonymous) ∉ t.names
  below : ∀ r k, (r, generatedName k) ∈ t.names → k < c

/-- What stands for a name in scope has its free names in scope; it has no anonymous variable, and
generated names with numbers below `c` only. -/
structure NormEnv.NamesBelow (c : Nat) (env : NormEnv) : Prop where
  inScope : ∀ x, Env.maps env x = true → ∀ y ∈ (NormEnv.image env x).freeNames,
    Env.maps env y = true
  values : ∀ x, Env.maps env x = true → x ≠ anonymous → (NormEnv.image env x).NamesBelow c

theorem Core.NamesBelow.mono {c c' : Nat} {t : Core} (h : t.NamesBelow c) (hc : c ≤ c') :
    t.NamesBelow c' :=
  ⟨h.named, fun r k hk ↦ Nat.lt_of_lt_of_le (h.below r k hk) hc⟩

theorem Core.NamesBelow.subset {c : Nat} {s t : Core} (h : t.NamesBelow c)
    (hnames : s.names ⊆ t.names) : s.NamesBelow c :=
  ⟨fun hmem ↦ h.named (hnames hmem), fun r k hk ↦ h.below r k (hnames hk)⟩

theorem Core.NamesBelow.operator {c rank : Nat} {type operator operand : Core}
    (h : (Core.app rank type operator operand).NamesBelow c) : operator.NamesBelow c :=
  h.subset (by simp [Core.names])

theorem Core.NamesBelow.operand {c rank : Nat} {type operator operand : Core}
    (h : (Core.app rank type operator operand).NamesBelow c) : operand.NamesBelow c :=
  h.subset (by simp [Core.names])

theorem Core.NamesBelow.ne_anonymous {c : Nat} {t : Core} (h : t.NamesBelow c) {x : String}
    (hx : x ∈ t.freeNames) : x ≠ anonymous := by
  rintro rfl
  exact h.named (t.mem_names_of_mem_freeNames hx)

theorem Core.namesBelow_var_iff {c : Nat} {x : String} :
    (Core.var x).NamesBelow c ↔ x ≠ anonymous ∧ ∀ k, x = generatedName k → k < c := by
  constructor
  · intro h
    refine ⟨h.ne_anonymous (by simp [Core.freeNames]), fun k hk ↦ h.below .reference k ?_⟩
    simp [Core.names, hk]
  · rintro ⟨hx, hk⟩
    refine ⟨by simpa [Core.names] using Ne.symm hx, fun r k hmem ↦ hk k ?_⟩
    simp only [Core.names, List.mem_singleton, Prod.mk.injEq] at hmem
    exact hmem.2.symm

namespace NormEnv

theorem image_of_not_maps {env : NormEnv} {x : String} (h : ¬ Env.maps env x = true) :
    image env x = .var x := by
  have hnone : Env.get? env x = none := by simpa [Env.maps] using h
  rw [image, hnone]
  rfl

theorem NamesBelow.nil (c : Nat) : NamesBelow c [] where
  inScope x h := by simp [Env.maps, Env.get?] at h
  values x h := by simp [Env.maps, Env.get?] at h

theorem NamesBelow.mono {c c' : Nat} {env : NormEnv} (h : NamesBelow c env) (hc : c ≤ c') :
    NamesBelow c' env :=
  ⟨h.inScope, fun x hx hname ↦ (h.values x hx hname).mono hc⟩

theorem maps_bind {env : NormEnv} {name : String} {c : Nat} {x : String} :
    Env.maps (bind env name c).1.2 x = true ↔
      x = name ∨ x = (bind env name c).1.1 ∨ Env.maps env x = true := by
  rcases bind_cases env name c with ⟨h, -⟩ | ⟨k, -, h, -⟩ <;> rw [h] <;>
    simp [maps_iff_mem, Env.push]

/-- The name that a binder gets is not free in what stands for the other free names of its body. -/
theorem bind_not_mem_image {env : NormEnv} {name : String} {c : Nat} {body : Core} {x : String}
    (henv : NamesBelow c env) (hbody : body.NamesBelow c) (hx : x ∈ body.freeNames)
    (hne : x ≠ name) : (bind env name c).1.1 ∉ (image env x).freeNames := by
  have hvar (hmaps : ¬ Env.maps env x = true) : (image env x).freeNames = [x] := by
    rw [image_of_not_maps hmaps, Core.freeNames]
  rcases bind_cases env name c with ⟨h, hname⟩ | ⟨k, hk, h, -⟩
  · rw [h]
    intro hmem
    by_cases hmaps : Env.maps env x = true
    · rcases hname with rfl | hname
      · exact (henv.values x hmaps hne).named (Core.mem_names_of_mem_freeNames _ hmem)
      · rw [henv.inScope x hmaps name hmem] at hname
        simp at hname
    · rw [hvar hmaps, List.mem_singleton] at hmem
      exact hne hmem.symm
  · rw [h]
    intro hmem
    refine absurd hk (Nat.not_le_of_lt ?_)
    by_cases hmaps : Env.maps env x = true
    · exact (henv.values x hmaps (hbody.ne_anonymous hx)).below _ _
        (Core.mem_names_of_mem_freeNames _ hmem)
    · rw [hvar hmaps, List.mem_singleton] at hmem
      subst hmem
      exact hbody.below _ _ (Core.mem_names_of_mem_freeNames _ hx)

theorem NamesBelow.bind {env : NormEnv} {name : String} {c : Nat} (henv : NamesBelow c env)
    (hname : ∀ k, name = generatedName k → k < c) :
    NamesBelow (bind env name c).2 (bind env name c).1.2 := by
  have hc := bind_counter_ge env name c
  have hnew (k : Nat) (hk : (NormEnv.bind env name c).1.1 = generatedName k) :
      k < (NormEnv.bind env name c).2 := by
    rcases bind_cases env name c with ⟨h, -⟩ | ⟨m, -, h, -⟩
    · rw [h] at hk ⊢
      exact hname k hk
    · rw [h] at hk ⊢
      rw [generatedName_injective hk]
      exact Nat.lt_succ_self k
  refine ⟨fun x hx y hy ↦ ?_, fun x hx hanonymous ↦ ?_⟩
  · rw [image_bind] at hy
    rw [maps_bind] at hx ⊢
    split at hy
    · exact .inr (.inl (by simpa [Core.freeNames] using hy))
    · rename_i hne
      by_cases hmaps : Env.maps env x = true
      · exact .inr (.inr (henv.inScope x hmaps y hy))
      · rw [image_of_not_maps hmaps, Core.freeNames, List.mem_singleton] at hy
        rw [hy]
        exact hx
  · rw [image_bind]
    split
    · rename_i hname
      refine Core.namesBelow_var_iff.mpr ⟨?_, hnew⟩
      rcases bind_cases env name c with ⟨h, -⟩ | ⟨m, -, h, -⟩
      · rw [h]
        exact hname ▸ hanonymous
      · rw [h]
        exact generatedName_ne_anonymous m
    · rename_i hne
      by_cases hmaps : Env.maps env x = true
      · exact (henv.values x hmaps hanonymous).mono hc
      · have hx : x = (NormEnv.bind env name c).1.1 := by
          simpa [hne, hmaps] using maps_bind.mp hx
        rw [image_of_not_maps hmaps]
        exact Core.namesBelow_var_iff.mpr ⟨hanonymous, fun k hk ↦ hnew k (hx ▸ hk)⟩

end NormEnv

/-! ### Normal forms -/

theorem Core.NamesBelow.image {c : Nat} {env : NormEnv} {t : Core} (ht : t.NamesBelow c)
    (henv : env.NamesBelow c) {x : String} (hx : (.reference, x) ∈ t.names) :
    (NormEnv.image env x).NamesBelow c := by
  have hname : x ≠ anonymous := by
    rintro rfl
    exact ht.named hx
  by_cases hmaps : Env.maps env x = true
  · exact henv.values x hmaps hname
  · rw [NormEnv.image_of_not_maps hmaps]
    exact Core.namesBelow_var_iff.mpr ⟨hname, fun k hk ↦ ht.below _ k (hk ▸ hx)⟩

theorem Core.Normalizes.namesBelow {c c' : Nat} {env : NormEnv} {t n : Core}
    (h : t.Normalizes env c n c') (henv : env.NamesBelow c) (ht : t.NamesBelow c) :
    n.NamesBelow c' := by
  have hc := h.counter_le
  refine ⟨fun hmem ↦ ?_, fun r k hmem ↦ ?_⟩
  · rcases h.origin hmem with h | ⟨x, hx, h⟩ | ⟨-, hprimed | ⟨k, -, -, hk⟩⟩
    · exact ht.named h
    · exact (ht.image henv hx).named h
    · exact hprimed.ne_anonymous rfl
    · exact generatedName_ne_anonymous k hk.symm
  · rcases h.origin hmem with h | ⟨x, hx, h⟩ | ⟨-, hprimed | ⟨m, -, hm, hk⟩⟩
    · exact Nat.lt_of_lt_of_le (ht.below r k h) hc
    · exact Nat.lt_of_lt_of_le ((ht.image henv hx).below r k h) hc
    · exact absurd hprimed (not_isPrimed_generatedName k)
    · rw [generatedName_injective hk]
      exact hm

theorem Core.NamesBelow.reduct {c : Nat} {param : String} {body operand : Core}
    (hbody : body.NamesBelow c) (hoperand : operand.NamesBelow c) :
    (body.subst (.single param operand)).NamesBelow c := by
  have hsupplied {r : NameRole} {x : String}
      (h : (r, x) ∈ (body.subst (.single param operand)).names) :
      (r, x) ∈ body.names ∨ (r, x) ∈ operand.names ∨ IsPrimed x := by
    rcases body.mem_names_subst _ h with h | ⟨entry, hentry, h⟩ | ⟨-, hprimed⟩
    · exact .inl h
    · rw [Substitution.single, List.mem_singleton] at hentry
      subst hentry
      exact .inr (.inl h)
    · exact .inr (.inr hprimed)
  refine ⟨fun hmem ↦ ?_, fun r k hmem ↦ ?_⟩
  · rcases hsupplied hmem with h | h | hprimed
    · exact hbody.named h
    · exact hoperand.named h
    · exact hprimed.ne_anonymous rfl
  · rcases hsupplied hmem with h | h | hprimed
    · exact hbody.below r k h
    · exact hoperand.below r k h
    · exact absurd hprimed (not_isPrimed_generatedName k)

/-! ### Labels apart from other names -/

/-- The names of record members are those that satisfy `L`, and no variable or binder has one of
them. -/
def Core.Segregates (L : String → Prop) (t : Core) : Prop :=
  ∀ r x, (r, x) ∈ t.names → (r = .label ↔ L x)

theorem Core.Segregates.subset {L : String → Prop} {s t : Core} (h : t.Segregates L)
    (hnames : s.names ⊆ t.names) : s.Segregates L :=
  fun r x hx ↦ h r x (hnames hx)

theorem Core.Segregates.not_mem_freeNames {L : String → Prop} {t : Core} (h : t.Segregates L)
    {l : String} (hl : L l) : l ∉ t.freeNames := by
  intro hmem
  have hrole := (h _ l (t.mem_names_of_mem_freeNames hmem)).mpr hl
  simp at hrole

/-- Labels are not names that the program makes. -/
def OriginalLabels (L : String → Prop) : Prop :=
  ∀ x, L x → ¬ IsPrimed x ∧ ∀ k, x ≠ generatedName k

/-- What stands for the names in scope keeps labels apart. Labels in scope do not matter, as no
variable has their names. -/
def NormEnv.Segregates (L : String → Prop) (env : NormEnv) : Prop :=
  ∀ x, Env.maps env x = true → x ≠ anonymous → ¬ L x → (NormEnv.image env x).Segregates L

theorem Core.segregates_var_iff {L : String → Prop} {x : String} :
    (Core.var x).Segregates L ↔ ¬ L x := by
  simp [Core.Segregates, Core.names]

theorem NormEnv.Segregates.image {L : String → Prop} {env : NormEnv} (henv : env.Segregates L)
    {t : Core} (ht : t.Segregates L) {x : String} (hx : (.reference, x) ∈ t.names)
    (hname : x ≠ anonymous) : (NormEnv.image env x).Segregates L := by
  have hlabel : ¬ L x := by simp [← ht _ x hx]
  by_cases hmaps : Env.maps env x = true
  · exact henv x hmaps hname hlabel
  · rw [NormEnv.image_of_not_maps hmaps, Core.segregates_var_iff]
    exact hlabel

theorem NormEnv.Segregates.bind {L : String → Prop} {env : NormEnv} (hL : OriginalLabels L)
    (henv : env.Segregates L) {name : String} (hname : ¬ L name) (c : Nat) :
    NormEnv.Segregates L (NormEnv.bind env name c).1.2 := by
  have hnew : ¬ L (NormEnv.bind env name c).1.1 := by
    rcases NormEnv.bind_cases env name c with ⟨h, -⟩ | ⟨k, -, h, -⟩
    · rw [h]
      exact hname
    · rw [h]
      exact fun hk ↦ (hL _ hk).2 k rfl
  intro x hx hanonymous hlabel
  rw [NormEnv.image_bind]
  split
  · exact Core.segregates_var_iff.mpr hnew
  · rename_i hne
    by_cases hmaps : Env.maps env x = true
    · exact henv x hmaps hanonymous hlabel
    · have hx : x = (NormEnv.bind env name c).1.1 := by
        simpa [hne, hmaps] using NormEnv.maps_bind.mp hx
      rw [NormEnv.image_of_not_maps hmaps, Core.segregates_var_iff, hx]
      exact hnew

theorem NormEnv.NamesBelow.push {c : Nat} {env : NormEnv} (henv : env.NamesBelow c) {l : String}
    (hl : ∀ k, l = generatedName k → k < c) : NormEnv.NamesBelow c (Env.push env l (.var l)) := by
  have hmaps {x : String} :
      Env.maps (Env.push env l (.var l)) x = true ↔ x = l ∨ Env.maps env x = true := by
    simp [NormEnv.maps_iff_mem, Env.push]
  refine ⟨fun x hx y hy ↦ ?_, fun x hx hanonymous ↦ ?_⟩
  · rw [NormEnv.image_push] at hy
    rw [hmaps] at hx ⊢
    split at hy
    · exact .inl (by simpa [Core.freeNames] using hy)
    · rename_i hne
      exact .inr (henv.inScope x (hx.resolve_left hne) y hy)
  · rw [NormEnv.image_push]
    split
    · rename_i hx
      exact Core.namesBelow_var_iff.mpr ⟨hx ▸ hanonymous, hl⟩
    · rename_i hne
      exact henv.values x ((hmaps.mp hx).resolve_left hne) hanonymous

theorem NormEnv.Segregates.push {L : String → Prop} {env : NormEnv} (henv : env.Segregates L)
    {l : String} (hl : L l) : NormEnv.Segregates L (Env.push env l (.var l)) := by
  intro x hx hanonymous hlabel
  have hne : x ≠ l := by
    rintro rfl
    exact hlabel hl
  rw [NormEnv.image_push, if_neg hne]
  refine henv x ?_ hanonymous hlabel
  simpa [NormEnv.maps_iff_mem, Env.push, hne] using hx

theorem Core.Normalizes.segregates {L : String → Prop} (hL : OriginalLabels L) {c c' : Nat}
    {env : NormEnv} {t n : Core} (h : t.Normalizes env c n c') (henv : env.Segregates L)
    (hnamed : (.reference, anonymous) ∉ t.names) (ht : t.Segregates L) : n.Segregates L := by
  intro r x hmem
  have hnew (hr : r ≠ .label) (hx : ¬ L x) : r = .label ↔ L x := by simp [hr, hx]
  rcases h.origin hmem with h | ⟨y, hy, h⟩ | ⟨hr, hprimed | ⟨k, -, -, hk⟩⟩
  · exact ht r x h
  · have hname : y ≠ anonymous := by
      rintro rfl
      exact hnamed hy
    exact henv.image ht hy hname r x h
  · exact hnew hr fun hx ↦ (hL x hx).1 hprimed
  · exact hnew hr fun hx ↦ (hL x hx).2 k hk

theorem Core.Segregates.reduct {L : String → Prop} (hL : OriginalLabels L) {param : String}
    {body operand : Core} (hbody : body.Segregates L) (hoperand : operand.Segregates L) :
    (body.subst (.single param operand)).Segregates L := by
  intro r x hmem
  rcases body.mem_names_subst _ hmem with h | ⟨entry, hentry, h⟩ | ⟨hr, hprimed⟩
  · exact hbody r x h
  · rw [Substitution.single, List.mem_singleton] at hentry
    subst hentry
    exact hoperand r x h
  · have hx : ¬ L x := fun hx ↦ (hL x hx).1 hprimed
    simp [hr, hx]

/-! ### Both together -/

/-- Names that the program makes are left to it, and labels are kept apart. -/
structure Core.Tame (L : String → Prop) (c : Nat) (t : Core) : Prop where
  below : t.NamesBelow c
  apart : t.Segregates L

structure NormEnv.Tame (L : String → Prop) (c : Nat) (env : NormEnv) : Prop where
  below : env.NamesBelow c
  apart : env.Segregates L

section Tame

variable {L : String → Prop} {c c' : Nat} {env : NormEnv} {s t n : Core}

theorem Core.Tame.mono (h : t.Tame L c) (hc : c ≤ c') : t.Tame L c' := ⟨h.below.mono hc, h.apart⟩

theorem Core.Tame.subset (h : t.Tame L c) (hnames : s.names ⊆ t.names) : s.Tame L c :=
  ⟨h.below.subset hnames, h.apart.subset hnames⟩

theorem NormEnv.Tame.nil (L : String → Prop) (c : Nat) : NormEnv.Tame L c [] :=
  ⟨.nil c, fun x h ↦ by simp [Env.maps, Env.get?] at h⟩

theorem NormEnv.Tame.mono (h : env.Tame L c) (hc : c ≤ c') : env.Tame L c' :=
  ⟨h.below.mono hc, h.apart⟩

theorem NormEnv.Tame.bind (hL : OriginalLabels L) (h : env.Tame L c) {name : String}
    (hname : (.binder, name) ∈ t.names) (ht : t.Tame L c) :
    NormEnv.Tame L (NormEnv.bind env name c).2 (NormEnv.bind env name c).1.2 := by
  refine ⟨h.below.bind fun k hk ↦ ht.below.below .binder k (hk ▸ hname), ?_⟩
  refine h.apart.bind hL ?_ c
  rw [← ht.apart _ name hname]
  simp

theorem NormEnv.Tame.push (h : env.Tame L c) {l : String} (hl : (.label, l) ∈ t.names)
    (ht : t.Tame L c) : NormEnv.Tame L c (Env.push env l (.var l)) :=
  ⟨h.below.push fun k hk ↦ ht.below.below .label k (hk ▸ hl),
    h.apart.push ((ht.apart _ l hl).mp rfl)⟩

theorem Core.Normalizes.tame (hL : OriginalLabels L) (h : t.Normalizes env c n c')
    (henv : env.Tame L c) (ht : t.Tame L c) : n.Tame L c' :=
  ⟨h.namesBelow henv.below ht.below, h.segregates hL henv.apart ht.below.named ht.apart⟩

theorem Core.Tame.reduct (hL : OriginalLabels L) {param : String} {body operand : Core}
    (hbody : body.Tame L c) (hoperand : operand.Tame L c) :
    (body.subst (.single param operand)).Tame L c :=
  ⟨hbody.below.reduct hoperand.below, hbody.apart.reduct hL hoperand.apart⟩

end Tame

end RankedTT
