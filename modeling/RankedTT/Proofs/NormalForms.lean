import RankedTT.Proofs.RedexFree

/-!
Normal forms, seen from their parts. The parts of a term are the term itself and the parts of its
immediate parts, types recorded on operators and the types of record members included; a constant
has no other part. If no part of a value in scope is a redex, then no part of an answer of the
normalizer is one.
-/

set_option autoImplicit false
set_option relaxedAutoImplicit false

namespace RankedTT

open Relation

/-! ### Parts -/

/-- The types of the members of a record type. -/
def Telescope.types : Telescope → List Core
  | .nil => []
  | .cons _ type _ rest => type :: rest.types

/-- The immediate parts of a term. -/
def Core.parts : Core → List Core
  | .univ _ | .var _ | .const _ => []
  | .quant _ _ domain _ codomain => [domain, codomain]
  | .signature members => members.types
  | .lam _ _ body => [body]
  | .record members => members
  | .app _ type operator operand => [type, operator, operand]
  | .proj _ type operator _ => [type, operator]

/-- The term `s` occurs in `t`, at any depth. -/
def Core.IsPart (s t : Core) : Prop := ReflTransGen (fun s t ↦ s ∈ t.parts) s t

/-- An applied lambda or a projected record. -/
def Core.isRedex : Core → Bool
  | .app _ _ operator _ => operator.isLambda
  | .proj _ _ operator _ => operator.isRecord
  | _ => false

/-- No part of the term is a redex. -/
def Core.InNormalForm (t : Core) : Prop := ∀ s : Core, s.IsPart t → s.isRedex = false

theorem Core.IsPart.self (t : Core) : t.IsPart t := .refl

theorem Core.IsPart.of_mem_parts {s u t : Core} (hs : s.IsPart u) (hu : u ∈ t.parts) :
    s.IsPart t :=
  hs.tail hu

/-! ### Redexes -/

theorem Telescope.isRedexFree_iff_types {types : Telescope} :
    types.isRedexFree = true ↔ ∀ t ∈ types.types, t.isRedexFree = true := by
  cases types with
  | nil => simp [Telescope.isRedexFree, Telescope.types]
  | cons _ type _ rest =>
    simp [Telescope.isRedexFree, Telescope.types, rest.isRedexFree_iff_types]

theorem Core.isRedexFreeMembers_iff_mem {members : List Core} :
    Core.isRedexFreeMembers members = true ↔ ∀ t ∈ members, t.isRedexFree = true := by
  induction members with
  | nil => simp [Core.isRedexFreeMembers]
  | cons m ms ih => simp [Core.isRedexFreeMembers, ih]

theorem Core.isRedexFree_iff_parts {t : Core} :
    t.isRedexFree = true ↔ t.isRedex = false ∧ ∀ s ∈ t.parts, s.isRedexFree = true := by
  cases t with
  | univ | var | const => simp [Core.isRedexFree, Core.isRedex, Core.parts]
  | signature members =>
    simp [Core.isRedexFree, Core.isRedex, Core.parts, Telescope.isRedexFree_iff_types]
  | record members =>
    simp [Core.isRedexFree, Core.isRedex, Core.parts, Core.isRedexFreeMembers_iff_mem]
  | quant | lam | app | proj =>
    simp [Core.isRedexFree, Core.isRedex, Core.parts, and_assoc, and_comm]

theorem Core.IsPart.isRedexFree {s t : Core} (h : s.IsPart t) (ht : t.isRedexFree = true) :
    s.isRedexFree = true := by
  induction h with
  | refl => exact ht
  | tail _ hmem ih => exact ih ((Core.isRedexFree_iff_parts.mp ht).2 _ hmem)

theorem Telescope.sizeOf_lt_of_mem_types {types : Telescope} {t : Core} (h : t ∈ types.types) :
    sizeOf t < sizeOf types := by
  cases types with
  | nil => simp [Telescope.types] at h
  | cons _ type _ rest =>
    simp only [Telescope.types, List.mem_cons] at h
    simp only [Telescope.cons.sizeOf_spec]
    rcases h with rfl | h
    · omega
    · have hrest := Telescope.sizeOf_lt_of_mem_types h
      omega

theorem Core.sizeOf_lt_of_mem_parts {s t : Core} (h : s ∈ t.parts) : sizeOf s < sizeOf t := by
  cases t with
  | univ | var | const => simp [Core.parts] at h
  | signature members =>
    have hmember := Telescope.sizeOf_lt_of_mem_types h
    simp only [Core.signature.sizeOf_spec]
    omega
  | record members =>
    have hmember : sizeOf s < sizeOf members := List.sizeOf_lt_of_mem h
    simp only [Core.record.sizeOf_spec]
    omega
  | quant | lam | app | proj =>
    simp only [Core.parts, List.mem_cons, List.not_mem_nil, or_false] at h
    rcases h with rfl | rfl | rfl <;> simp <;> omega

theorem Core.InNormalForm.isRedexFree {t : Core} (h : t.InNormalForm) : t.isRedexFree = true := by
  refine Core.isRedexFree_iff_parts.mpr ⟨h t (.self t), fun s hs ↦ ?_⟩
  have hpart : s.InNormalForm := fun u hu ↦ h u (hu.of_mem_parts hs)
  exact hpart.isRedexFree
termination_by t
decreasing_by exact Core.sizeOf_lt_of_mem_parts hs

/-- A term has no redex exactly if none of its parts is one. -/
theorem Core.isRedexFree_iff {t : Core} : t.isRedexFree = true ↔ t.InNormalForm :=
  ⟨fun h _ hs ↦ (Core.isRedexFree_iff_parts.mp (hs.isRedexFree h)).1, fun h ↦ h.isRedexFree⟩

/-! ### Normalization -/

open Run

/-- If the values in scope are in normal form, so is what the normalizer answers. -/
theorem Core.inNormalForm_of_normalize {fuel c c' : Nat} {env : NormEnv} {t n : Core}
    (henv : ∀ x value, Env.get? env x = some value → value.InNormalForm)
    (h : (t.normalize fuel env).Returns c n c') : n.InNormalForm := by
  have hvalues : env.RedexFreeOn t.names := by
    intro x _
    unfold NormEnv.image
    cases hget : Env.get? env x with
    | none => rfl
    | some value => exact (henv x value hget).isRedexFree
  exact Core.isRedexFree_iff.mp ((Core.normalizes_of_returns h).isRedexFree hvalues)

/-- Unfolding the names in scope makes redexes, in the operand of a variable and in the type that is
recorded on it. -/
theorem Core.inNormalForm_of_normalize_twice :
    let env : NormEnv :=
      [("twice", .lam "f" none (.app 0 (.var "F") (.var "f")
        (.app 0 (.var "F") (.var "f") (.var "x")))),
        ("first", .lam "p" none (.proj 0 (.univ 0) (.var "p") 0))]
    let t : Core := .app 0 (.app 0 (.univ 0) (.var "first") (.record [.var "T"])) (.var "g")
      (.app 0 (.univ 0) (.var "twice") (.lam "r" none (.record [.var "r"])))
    let n : Core := .app 0 (.var "T") (.var "g") (.record [.record [.var "x"]])
    (∀ x value, Env.get? env x = some value → value.InNormalForm) ∧
      (t.normalize 9 env).Returns 0 n 0 ∧ n.InNormalForm := by
  intro env t n
  have henv : ∀ x value, Env.get? env x = some value → value.InNormalForm := by
    intro x value hget
    have hmem : value ∈ env.map Prod.snd := by
      obtain ⟨before, after, henv, -⟩ := List.lookup_eq_some_iff.mp hget
      simp [henv]
    simp only [env, List.map_cons, List.map_nil, List.mem_cons, List.not_mem_nil,
      or_false] at hmem
    rcases hmem with rfl | rfl <;> exact Core.isRedexFree_iff.mp rfl
  have hnormalize : (t.normalize 9 env).Returns 0 n 0 := rfl
  exact ⟨henv, hnormalize, Core.inNormalForm_of_normalize henv hnormalize⟩

end RankedTT
