import Mathlib.Data.Finset.Dedup
import Mathlib.Data.Nat.SuccPred
import RankedTT.Proofs.Loops
import RankedTT.Proofs.Returns

/-!
Normalization as a relation. The rules of `Core.Normalizes` say what a successful normalization does
to each kind of term, without fuel; every answer of the normalizer is derived by them, so a property
of normal forms is proved by going through the rules. Generated names are new: the search for one
ends at a name that the environment does not map.
-/

set_option autoImplicit false
set_option relaxedAutoImplicit false

namespace RankedTT

/-! ### Generated names -/

theorem generatedName_injective : Function.Injective generatedName := by
  intro m n h
  have hlist := congrArg String.toList h
  simp only [generatedName, String.toList_append, List.append_cancel_left_eq,
    Nat.toString_eq_ofList_toDigits, String.toList_ofList] at hlist
  have hdigits := congrArg (fun digits ↦ Nat.ofDigitChars 10 digits 0) hlist
  simpa only [Nat.ofDigitChars_ten_toDigits] using hdigits

theorem head?_generatedName (k : Nat) : (generatedName k).toList.head? = some '_' := by
  rw [generatedName, String.toList_append]
  rfl

theorem generatedName_ne_anonymous (k : Nat) : generatedName k ≠ anonymous := by
  intro h
  have hhead := head?_generatedName k
  rw [h] at hhead
  simp [anonymous] at hhead

namespace NormEnv

theorem maps_iff_mem {α : Type} {env : Env α} {name : String} :
    Env.maps env name = true ↔ name ∈ List.map Prod.fst env := by
  unfold Env.maps Env.get?
  induction env with
  | nil => simp
  | cons entry env ih =>
    rw [List.lookup_cons]
    by_cases h : name = entry.1
    · simp [h]
    · have hbeq : (name == entry.1) = false := by simpa using h
      rw [hbeq, List.map_cons, List.mem_cons, ← ih]
      simp [h]

/-- The search for a generated name is the loop that counts on as long as the name is mapped. It
passes over at most as many names as are mapped, and the counter is set behind the name. -/
theorem loop_freshName (env : NormEnv) (c : Nat) :
    ∃ passed ≤ (env.map Prod.fst).toFinset.card, ∃ k ≥ c,
      Loop (fun i ↦ Env.maps env (generatedName i)) (· + 1) c passed k ∧
      freshName env c = (generatedName k, k + 1) := by
  have hinjective : Function.Injective fun i ↦ generatedName ((· + 1)^[i] c) := by
    intro i j hij
    have hcount : Nat.succ^[i] c = Nat.succ^[j] c := generatedName_injective hij
    rw [Nat.succ_iterate, Nat.succ_iterate] at hcount
    exact Nat.add_left_cancel hcount
  obtain ⟨passed, hpassed, k, hloop⟩ : ∃ passed ≤ (env.map Prod.fst).toFinset.card, ∃ k,
      Loop (fun i ↦ Env.maps env (generatedName i)) (· + 1) c passed k :=
    Loop.exists_of_injective generatedName _ hinjective
      fun i hi ↦ List.mem_toFinset.mpr (maps_iff_mem.mp hi)
  have hcount : c ≤ k := hloop.keeps (P := (c ≤ ·)) (fun _ ↦ Nat.le_succ_of_le) (Nat.le_refl c)
  have hlength : passed ≤ env.length := by
    simpa using hpassed.trans (List.toFinset_card_le (env.map Prod.fst))
  have hindex : freeIndex env env.length c = k :=
    hloop.eq_of_fuel (fun _ ↦ rfl) (fun _ _ ↦ rfl) hlength
  exact ⟨passed, hpassed, k, hcount, hloop, by rw [freshName, hindex]⟩

/-- What stands for a name in an environment: its value, or the name itself. -/
def image (env : NormEnv) (x : String) : Core := (Env.get? env x).getD (.var x)

@[simp]
theorem image_nil (x : String) : image [] x = .var x := rfl

theorem image_push (env : NormEnv) (name : String) (value : Core) (x : String) :
    image (Env.push env name value) x = if x = name then value else image env x := by
  unfold image
  by_cases h : x = name
  · subst h
    simp
  · rw [Env.get?_push_of_ne env value h, if_neg h]

/-- A binder keeps its name and the counter, or it gets a generated name that the environment does
not map, with the counter set behind it. -/
theorem bind_cases (env : NormEnv) (name : String) (c : Nat) :
    (bind env name c = ((name, Env.push env name (.var name)), c) ∧
        (name = anonymous ∨ Env.maps env name = false)) ∨
      ∃ k ≥ c, bind env name c =
          ((generatedName k, Env.push (Env.push env (generatedName k) (.var (generatedName k)))
            name (.var (generatedName k))), k + 1) ∧
        Env.maps env (generatedName k) = false ∧ name ≠ anonymous := by
  by_cases h : name == anonymous || !Env.maps env name
  · left
    refine ⟨by rw [bind, if_pos h], ?_⟩
    rw [Bool.or_eq_true, beq_iff_eq, Bool.not_eq_true'] at h
    exact h
  · right
    obtain ⟨_, -, k, hk, hloop, hfresh⟩ := loop_freshName env c
    refine ⟨k, hk, by rw [bind, if_neg h, hfresh], hloop.guard_eq_false, ?_⟩
    rintro rfl
    simp at h

/-- Under a binder its name stands for the new binder, and all other names for what they stood for
outside. -/
theorem image_bind (env : NormEnv) (name : String) (c : Nat) (x : String) :
    image (bind env name c).1.2 x =
      if x = name then .var (bind env name c).1.1 else image env x := by
  rcases bind_cases env name c with ⟨h, -⟩ | ⟨k, -, h, hfree, -⟩
  · rw [h]
    change image (Env.push env name (.var name)) x = _
    rw [image_push]
  · rw [h]
    change image (Env.push (Env.push env _ _) name _) x = _
    rw [image_push, image_push]
    by_cases hx : x = name
    · rw [if_pos hx, if_pos hx]
    · rw [if_neg hx, if_neg hx]
      by_cases hk : x = generatedName k
      · rw [if_pos hk, hk]
        have hnone : Env.get? env (generatedName k) = none := by simpa [Env.maps] using hfree
        rw [image, hnone]
        rfl
      · rw [if_neg hk]

section Images

variable {p : Core → Bool} (hvar : ∀ y, p (.var y) = true) {env : NormEnv} {x : String}

include hvar

/-- A property of variables that what a name stands for has, it has where another name is
brought into scope. -/
theorem holds_image_push (h : p (image env x) = true) (name y : String) :
    p (image (Env.push env name (.var y)) x) = true := by
  rw [image_push]
  split
  · exact hvar y
  · exact h

theorem holds_image_bind (h : p (image env x) = true) (name : String) (c : Nat) :
    p (image (bind env name c).1.2 x) = true := by
  rw [image_bind]
  split
  · exact hvar _
  · exact h

end Images

theorem bind_counter_ge (env : NormEnv) (name : String) (c : Nat) : c ≤ (bind env name c).2 := by
  rcases bind_cases env name c with ⟨h, -⟩ | ⟨k, hk, h, -⟩
  · exact Nat.le_of_eq (congrArg Prod.snd h).symm
  · rw [h]
    exact Nat.le_succ_of_le hk

end NormEnv

/-! ### The rules of normalization -/

mutual

/-- `t.Normalizes env c n c'`: under the environment `env` and with the counter `c`, the term `t`
has the normal form `n`, and the counter ends at `c'`. -/
inductive Core.Normalizes : NormEnv → Core → Nat → Core → Nat → Prop
  | univ {env : NormEnv} {rank c : Nat} : Core.Normalizes env (.univ rank) c (.univ rank) c
  | const {env : NormEnv} {value : Value} {c : Nat} :
      Core.Normalizes env (.const value) c (.const value) c
  | var {env : NormEnv} {x : String} {c : Nat} :
      Core.Normalizes env (.var x) c (NormEnv.image env x) c
  | quant {env : NormEnv} {polarity : Polarity} {rank c c₁ c₂ : Nat} {name : String}
      {domain domain' codomain codomain' : Core}
      (hdomain : Core.Normalizes env domain c domain' c₁)
      (hcodomain : Core.Normalizes (NormEnv.bind env name c₁).1.2 codomain
        (NormEnv.bind env name c₁).2 codomain' c₂) :
      Core.Normalizes env (.quant polarity rank domain name codomain) c
        (.quant polarity rank domain' (NormEnv.bind env name c₁).1.1 codomain') c₂
  | signature {env : NormEnv} {c c' : Nat} {members members' : Telescope}
      (hmembers : Telescope.Normalizes env members c members' c') :
      Core.Normalizes env (.signature members) c (.signature members') c'
  | lam {env : NormEnv} {c c' : Nat} {param : String} {stamp : Stamp} {body body' : Core}
      (hbody : Core.Normalizes (NormEnv.bind env param c).1.2 body
        (NormEnv.bind env param c).2 body' c') :
      Core.Normalizes env (.lam param stamp body) c
        (.lam (NormEnv.bind env param c).1.1 none body') c'
  | record {env : NormEnv} {c c' : Nat} {members members' : List Core}
      (hmembers : Core.NormalizesMembers env members c members' c') :
      Core.Normalizes env (.record members) c (.record members') c'
  /-- An applied lambda: its normal form is entered with the normal operand, and what results is
  normalized under the empty environment. -/
  | beta {env : NormEnv} {rank c c₁ c₂ c₃ : Nat} {param : String} {stamp : Stamp}
      {type operator operand body operand' result : Core}
      (hoperator : Core.Normalizes env operator c (.lam param stamp body) c₁)
      (hoperand : Core.Normalizes env operand c₁ operand' c₂)
      (hresult : Core.Normalizes [] (body.subst (.single param operand')) c₂ result c₃) :
      Core.Normalizes env (.app rank type operator operand) c result c₃
  | app {env : NormEnv} {rank c c₁ c₂ c₃ : Nat}
      {type operator operand type' operator' operand' : Core}
      (hoperator : Core.Normalizes env operator c operator' c₁)
      (hstuck : ∀ param stamp body, operator' ≠ .lam param stamp body)
      (hoperand : Core.Normalizes env operand c₁ operand' c₂)
      (htype : Core.Normalizes env type c₂ type' c₃) :
      Core.Normalizes env (.app rank type operator operand) c
        (.app rank type' operator' operand') c₃
  /-- A projected record: the member is selected from the normal members. -/
  | select {env : NormEnv} {rank c c₁ index : Nat} {type operator member : Core}
      {members : List Core} (hoperator : Core.Normalizes env operator c (.record members) c₁)
      (hmember : members[index]? = some member) :
      Core.Normalizes env (.proj rank type operator index) c member c₁
  | proj {env : NormEnv} {rank c c₁ c₂ index : Nat} {type operator type' operator' : Core}
      (hoperator : Core.Normalizes env operator c operator' c₁)
      (hstuck : ∀ members, operator' ≠ .record members)
      (htype : Core.Normalizes env type c₁ type' c₂) :
      Core.Normalizes env (.proj rank type operator index) c
        (.proj rank type' operator' index) c₂

inductive Telescope.Normalizes : NormEnv → Telescope → Nat → Telescope → Nat → Prop
  | nil {env : NormEnv} {c : Nat} : Telescope.Normalizes env .nil c .nil c
  | cons {env : NormEnv} {rank c c₁ c₂ : Nat} {name : String} {type type' : Core}
      {rest rest' : Telescope} (htype : Core.Normalizes env type c type' c₁)
      (hrest : Telescope.Normalizes (Env.push env name (.var name)) rest c₁ rest' c₂) :
      Telescope.Normalizes env (.cons rank type name rest) c (.cons rank type' name rest') c₂

inductive Core.NormalizesMembers : NormEnv → List Core → Nat → List Core → Nat → Prop
  | nil {env : NormEnv} {c : Nat} : Core.NormalizesMembers env [] c [] c
  | cons {env : NormEnv} {c c₁ c₂ : Nat} {m m' : Core} {ms ms' : List Core}
      (hhead : Core.Normalizes env m c m' c₁)
      (htail : Core.NormalizesMembers env ms c₁ ms' c₂) :
      Core.NormalizesMembers env (m :: ms) c (m' :: ms') c₂

end

open Run

theorem Telescope.normalizes_of_returns
    {normalize : NormEnv → Core → Run Nat BadProjection Core}
    (h : ∀ {env t c n c'}, (normalize env t).Returns c n c' → t.Normalizes env c n c')
    {members : Telescope} {env : NormEnv} {c c' : Nat} {members' : Telescope}
    (hreturns : (members.normalizeWith normalize env).Returns c members' c') :
    members.Normalizes env c members' c' := by
  match members with
  | .nil =>
    simp only [Telescope.normalizeWith, returns_pure_iff] at hreturns
    obtain ⟨rfl, rfl⟩ := hreturns
    exact .nil
  | .cons rank type name rest =>
    simp only [Telescope.normalizeWith, returns_bind_iff, returns_pure_iff] at hreturns
    obtain ⟨type', c₁, htype, rest', c₂, hrest, rfl, rfl⟩ := hreturns
    exact .cons (h htype) (Telescope.normalizes_of_returns h hrest)

theorem Core.normalizesMembers_of_returns
    {normalize : NormEnv → Core → Run Nat BadProjection Core}
    (h : ∀ {env t c n c'}, (normalize env t).Returns c n c' → t.Normalizes env c n c')
    {env : NormEnv} {c c' : Nat} {members members' : List Core}
    (hreturns : ReturnsEach (normalize env) c members members' c') :
    Core.NormalizesMembers env members c members' c' := by
  induction hreturns with
  | nil => exact .nil
  | cons hhead _ ih => exact .cons (h hhead) ih

/-- Every answer of the normalizer is derived by the rules. -/
theorem Core.normalizes_of_returns {fuel : Nat} {env : NormEnv} {t : Core} {c c' : Nat} {n : Core}
    (h : (t.normalize fuel env).Returns c n c') : t.Normalizes env c n c' := by
  induction fuel generalizing env t c n c' with
  | zero => simp [Core.normalize] at h
  | succ fuel ih =>
    cases t with
    | univ rank =>
      simp only [Core.normalize, returns_pure_iff] at h
      obtain ⟨rfl, rfl⟩ := h
      exact .univ
    | const value =>
      simp only [Core.normalize, returns_pure_iff] at h
      obtain ⟨rfl, rfl⟩ := h
      exact .const
    | var x =>
      simp only [Core.normalize, returns_pure_iff] at h
      obtain ⟨rfl, rfl⟩ := h
      exact .var
    | quant polarity rank domain name codomain =>
      simp only [Core.normalize, returns_bind_iff, returns_pure_iff, returns_modifyGet_iff] at h
      obtain ⟨domain', c₁, hdomain, binder, c₂, hbind, codomain', c₃, hcodomain, rfl, rfl⟩ := h
      obtain ⟨rfl, rfl⟩ := Prod.mk.inj hbind
      exact .quant (ih hdomain) (ih hcodomain)
    | signature members =>
      simp only [Core.normalize, returns_bind_iff, returns_pure_iff] at h
      obtain ⟨members', c₁, hmembers, rfl, rfl⟩ := h
      exact .signature (Telescope.normalizes_of_returns ih hmembers)
    | lam param stamp body =>
      simp only [Core.normalize, returns_bind_iff, returns_pure_iff, returns_modifyGet_iff] at h
      obtain ⟨binder, c₁, hbind, body', c₂, hbody, rfl, rfl⟩ := h
      obtain ⟨rfl, rfl⟩ := Prod.mk.inj hbind
      exact .lam (ih hbody)
    | record members =>
      simp only [Core.normalize, returns_bind_iff, returns_pure_iff, returns_mapM_iff] at h
      obtain ⟨members', c₁, hmembers, rfl, rfl⟩ := h
      exact .record (Core.normalizesMembers_of_returns ih hmembers)
    | app rank type operator operand =>
      simp only [Core.normalize, returns_bind_iff] at h
      obtain ⟨operator', c₁, hoperator, operand', c₂, hoperand, h⟩ := h
      split at h
      · exact .beta (ih hoperator) (ih hoperand) (ih h)
      · rename_i hstuck
        simp only [returns_bind_iff, returns_pure_iff] at h
        obtain ⟨type', c₃, htype, rfl, rfl⟩ := h
        exact .app (ih hoperator) hstuck (ih hoperand) (ih htype)
    | proj rank type operator index =>
      simp only [Core.normalize, returns_bind_iff] at h
      obtain ⟨operator', c₁, hoperator, h⟩ := h
      split at h
      · split at h
        · rename_i hmember
          simp only [returns_pure_iff] at h
          obtain ⟨rfl, rfl⟩ := h
          exact .select (ih hoperator) hmember
        · simp at h
      · rename_i hstuck
        simp only [returns_bind_iff, returns_pure_iff] at h
        obtain ⟨type', c₂, htype, rfl, rfl⟩ := h
        exact .proj (ih hoperator) hstuck (ih htype)

/-- The same with a new counter. -/
theorem Core.normalizes_of_normalForm {fuel : Nat} {env : NormEnv} {t n : Core}
    (h : t.normalForm fuel env = .ok n) : ∃ c, t.Normalizes env 0 n c := by
  obtain ⟨c, hc⟩ := outcome_eq_ok_iff.mp h
  exact ⟨c, Core.normalizes_of_returns hc⟩

end RankedTT
