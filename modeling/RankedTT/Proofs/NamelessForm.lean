import RankedTT.Proofs.Nameless
import RankedTT.Proofs.Substitution
import RankedTT.Core.Alpha

/-!
The nameless form of core terms. In a scope, a list of binder names with the innermost first, a name
refers to the first binder of that name, or is free. Two terms have the same nameless form exactly
if they agree up to the names of binders; and where no label captures a name, substitution of terms
for names is the substitution of nameless terms.
-/

set_option autoImplicit false
set_option relaxedAutoImplicit false

namespace RankedTT

/-- What a name refers to in a scope. -/
def Ref.ofName : List String → String → Ref
  | [], x => .free x
  | y :: scope, x => if x = y then .bound 0 else (Ref.ofName scope x).rename (· + 1)

mutual

def Core.nameless (scope : List String) : Core → Nameless
  | .univ rank => .univ rank
  | .quant polarity rank domain name codomain =>
    .quant polarity rank (domain.nameless scope) (codomain.nameless (name :: scope))
  | .signature members => .signature (members.nameless scope)
  | .lam param _ body => .lam (body.nameless (param :: scope))
  | .record members => .record (Core.namelessMembers scope members)
  | .app rank type operator operand =>
    .app rank (type.nameless scope) (operator.nameless scope) (operand.nameless scope)
  | .proj rank type operator index =>
    .proj rank (type.nameless scope) (operator.nameless scope) index
  | .var name => .var (.ofName scope name)
  | .const value => .const value.key

def Telescope.nameless (scope : List String) : Telescope → Nameless
  | .nil => .nil
  | .cons rank type name rest =>
    .declare rank (type.nameless scope) name (rest.nameless (name :: scope))

def Core.namelessMembers (scope : List String) : List Core → Nameless
  | [] => .nil
  | m :: ms => .cons (m.nameless scope) (Core.namelessMembers scope ms)

end

theorem Core.nth_namelessMembers {members : List Core} {index : Nat} {member : Core}
    (h : members[index]? = some member) (scope : List String) :
    (Core.namelessMembers scope members).nth index = some (member.nameless scope) := by
  induction members generalizing index with
  | nil => simp at h
  | cons m ms ih =>
    cases index with
    | zero =>
      obtain rfl : m = member := by simpa using h
      rfl
    | succ index => exact ih (by simpa using h)

/-! ### Equality up to the names of binders -/

theorem Ref.rename_succ_injective {u v : Ref} (h : u.rename (· + 1) = v.rename (· + 1)) :
    u = v := by
  cases u <;> cases v <;> simp_all [Ref.rename]

theorem Ref.bound_zero_ne_rename_succ (v : Ref) : Ref.bound 0 ≠ v.rename (· + 1) := by
  cases v <;> simp [Ref.rename]

theorem sameVariable_iff (scope : List (String × String)) (x y : String) :
    sameVariable scope x y = true ↔
      Ref.ofName (scope.map Prod.fst) x = Ref.ofName (scope.map Prod.snd) y := by
  induction scope with
  | nil => simp [sameVariable, Ref.ofName]
  | cons entry scope ih =>
    obtain ⟨a, b⟩ := entry
    simp only [sameVariable, List.map_cons, Ref.ofName, Bool.or_eq_true, beq_iff_eq]
    by_cases ha : a = x <;> by_cases hb : b = y
    · simp [ha, hb]
    · simp [ha, hb, Ne.symm hb, Ref.bound_zero_ne_rename_succ]
    · simp [ha, hb, Ne.symm ha, Ne.symm (Ref.bound_zero_ne_rename_succ _)]
    · rw [if_neg (by simp [ha, hb]), if_neg (Ne.symm ha), if_neg (Ne.symm hb), ih]
      exact ⟨congrArg _, Ref.rename_succ_injective⟩

mutual

theorem Core.alphaEqIn_iff (scope : List (String × String)) :
    (s t : Core) → (s.alphaEqIn scope t = true ↔
      s.nameless (scope.map Prod.fst) = t.nameless (scope.map Prod.snd))
  | .univ m, t => by cases t <;> simp [Core.alphaEqIn, Core.nameless]
  | .quant _ _ domain name codomain, t => by
    cases t with
    | quant _ _ domain' name' codomain' =>
      simp [Core.alphaEqIn, Core.nameless, domain.alphaEqIn_iff scope domain',
        codomain.alphaEqIn_iff ((name, name') :: scope) codomain', and_assoc]
    | _ => simp [Core.alphaEqIn, Core.nameless]
  | .signature ms, t => by
    cases t with
    | signature ns => simp [Core.alphaEqIn, Core.nameless, ms.alphaEqIn_iff scope ns]
    | _ => simp [Core.alphaEqIn, Core.nameless]
  | .lam param _ body, t => by
    cases t with
    | lam param' _ body' =>
      simp [Core.alphaEqIn, Core.nameless, body.alphaEqIn_iff ((param, param') :: scope) body']
    | _ => simp [Core.alphaEqIn, Core.nameless]
  | .record ms, t => by
    cases t with
    | record ns => simp [Core.alphaEqIn, Core.nameless, Core.alphaEqMembersIn_iff scope ms ns]
    | _ => simp [Core.alphaEqIn, Core.nameless]
  | .app _ type operator operand, t => by
    cases t with
    | app _ type' operator' operand' =>
      simp [Core.alphaEqIn, Core.nameless, type.alphaEqIn_iff scope type',
        operator.alphaEqIn_iff scope operator', operand.alphaEqIn_iff scope operand', and_assoc]
    | _ => simp [Core.alphaEqIn, Core.nameless]
  | .proj _ type operator _, t => by
    cases t with
    | proj _ type' operator' _ =>
      simp [Core.alphaEqIn, Core.nameless, type.alphaEqIn_iff scope type',
        operator.alphaEqIn_iff scope operator', and_assoc]
    | _ => simp [Core.alphaEqIn, Core.nameless]
  | .var x, t => by
    cases t with
    | var y => simp [Core.alphaEqIn, Core.nameless, sameVariable_iff]
    | _ => simp [Core.alphaEqIn, Core.nameless]
  | .const v, t => by
    cases t with
    | const w => simp [Core.alphaEqIn, Core.nameless, Value.beq_iff]
    | _ => simp [Core.alphaEqIn, Core.nameless]

theorem Telescope.alphaEqIn_iff (scope : List (String × String)) :
    (s t : Telescope) → (s.alphaEqIn scope t = true ↔
      s.nameless (scope.map Prod.fst) = t.nameless (scope.map Prod.snd))
  | .nil, t => by cases t <;> simp [Telescope.alphaEqIn, Telescope.nameless]
  | .cons _ type name rest, t => by
    cases t with
    | nil => simp [Telescope.alphaEqIn, Telescope.nameless]
    | cons _ type' name' rest' =>
      simp [Telescope.alphaEqIn, Telescope.nameless, type.alphaEqIn_iff scope type',
        rest.alphaEqIn_iff ((name, name') :: scope) rest']
      tauto

theorem Core.alphaEqMembersIn_iff (scope : List (String × String)) :
    (ss ts : List Core) → (Core.alphaEqMembersIn scope ss ts = true ↔
      Core.namelessMembers (scope.map Prod.fst) ss = Core.namelessMembers (scope.map Prod.snd) ts)
  | [], ts => by cases ts <;> simp [Core.alphaEqMembersIn, Core.namelessMembers]
  | s :: ss, ts => by
    cases ts with
    | nil => simp [Core.alphaEqMembersIn, Core.namelessMembers]
    | cons t ts =>
      simp [Core.alphaEqMembersIn, Core.namelessMembers, s.alphaEqIn_iff scope t,
        Core.alphaEqMembersIn_iff scope ss ts]

end

/-- Terms agree up to the names of binders if they have the same nameless form. -/
theorem Core.alphaEq_iff (s t : Core) : s.alphaEq t = true ↔ s.nameless [] = t.nameless [] :=
  s.alphaEqIn_iff [] t

/-! ### Other scopes -/

theorem Ref.ofName_cons_self (x : String) (scope : List String) :
    Ref.ofName (x :: scope) x = .bound 0 := by
  simp [Ref.ofName]

theorem Ref.ofName_cons_of_ne {x y : String} (h : x ≠ y) (scope : List String) :
    Ref.ofName (y :: scope) x = (Ref.ofName scope x).rename (· + 1) := by
  simp [Ref.ofName, h]

theorem Nameless.lift_rename_succ (τ : Ref → Nameless) (v : Ref) :
    Nameless.lift τ (v.rename (· + 1)) = (τ v).shift := by
  cases v <;> rfl

/-- Below a binder, a renaming of the other names is lifted. -/
theorem Ref.lift_ofName {τ : Ref → Nameless} {name : String} {xs scope scope' : List String}
    (h : ∀ x ∈ xs.filter (· != name), τ (.ofName scope x) = .var (.ofName scope' x)) :
    ∀ x ∈ xs, Nameless.lift τ (.ofName (name :: scope) x) =
      .var (.ofName (name :: scope') x) := by
  intro x hx
  by_cases hname : x = name
  · rw [hname, Ref.ofName_cons_self, Ref.ofName_cons_self]
    rfl
  · rw [Ref.ofName_cons_of_ne hname, Ref.ofName_cons_of_ne hname, Nameless.lift_rename_succ,
      h x (by simpa [hname] using hx)]
    rfl

mutual

/-- A term in another scope, where its free names refer to other variables. -/
theorem Core.nameless_scope {τ : Ref → Nameless} {scope scope' : List String} : (t : Core) →
    (∀ x ∈ t.freeNames, τ (.ofName scope x) = .var (.ofName scope' x)) →
      (t.nameless scope).subst τ = t.nameless scope'
  | .univ _, _ | .const _, _ => rfl
  | .quant _ _ domain _ codomain, h => by
    obtain ⟨hdomain, hcodomain⟩ := List.forall_mem_append.mp h
    simp only [Core.nameless, Nameless.subst, domain.nameless_scope hdomain,
      codomain.nameless_scope (Ref.lift_ofName hcodomain)]
  | .signature members, h => congrArg Nameless.signature (members.nameless_scope h)
  | .lam _ _ body, h => congrArg Nameless.lam (body.nameless_scope (Ref.lift_ofName h))
  | .record members, h => congrArg Nameless.record (Core.namelessMembers_scope members h)
  | .app _ type operator operand, h => by
    obtain ⟨h, hoperand⟩ := List.forall_mem_append.mp h
    obtain ⟨htype, hoperator⟩ := List.forall_mem_append.mp h
    simp only [Core.nameless, Nameless.subst, type.nameless_scope htype,
      operator.nameless_scope hoperator, operand.nameless_scope hoperand]
  | .proj _ type operator _, h => by
    obtain ⟨htype, hoperator⟩ := List.forall_mem_append.mp h
    simp only [Core.nameless, Nameless.subst, type.nameless_scope htype,
      operator.nameless_scope hoperator]
  | .var x, h => h x (by simp [Core.freeNames])

theorem Telescope.nameless_scope {τ : Ref → Nameless} {scope scope' : List String} :
    (t : Telescope) → (∀ x ∈ t.freeNames, τ (.ofName scope x) = .var (.ofName scope' x)) →
      (t.nameless scope).subst τ = t.nameless scope'
  | .nil, _ => rfl
  | .cons _ type _ rest, h => by
    obtain ⟨htype, hrest⟩ := List.forall_mem_append.mp h
    simp only [Telescope.nameless, Nameless.subst, type.nameless_scope htype,
      rest.nameless_scope (Ref.lift_ofName hrest)]

theorem Core.namelessMembers_scope {τ : Ref → Nameless} {scope scope' : List String} :
    (ts : List Core) →
      (∀ x ∈ Core.freeNamesMembers ts, τ (.ofName scope x) = .var (.ofName scope' x)) →
      (Core.namelessMembers scope ts).subst τ = Core.namelessMembers scope' ts
  | [], _ => rfl
  | m :: ms, h => by
    obtain ⟨hm, hms⟩ := List.forall_mem_append.mp h
    simp only [Core.namelessMembers, Nameless.subst, m.nameless_scope hm,
      Core.namelessMembers_scope ms hms]

end

/-- Below a binder whose name is not free in the term. -/
theorem Core.nameless_cons {t : Core} {x : String} (hx : x ∉ t.freeNames) (scope : List String) :
    t.nameless (x :: scope) = (t.nameless scope).shift := by
  rw [Nameless.shift, Nameless.rename_eq_subst]
  refine (t.nameless_scope fun y hy ↦ ?_).symm
  rw [Ref.ofName_cons_of_ne]
  rintro rfl
  exact hx hy

/-! ### Substitution -/

namespace Substitution

/-- The labels among `names` capture nothing: they are not free in substituted terms, and no binder
is renamed to one of them. -/
def AvoidsLabels (σ : Substitution) (names : List (NameRole × String)) : Prop :=
  ∀ l, (.label, l) ∈ names → ¬ IsPrimed l ∧ ∀ entry ∈ σ, l ∉ entry.2.freeNames

theorem AvoidsLabels.subset {σ : Substitution} {names names' : List (NameRole × String)}
    (h : AvoidsLabels σ names) (hsub : names' ⊆ names) : AvoidsLabels σ names' :=
  fun l hl ↦ h l (hsub hl)

theorem AvoidsLabels.without {σ : Substitution} {names : List (NameRole × String)}
    (h : AvoidsLabels σ names) (name : String) : AvoidsLabels (without σ name) names :=
  fun l hl ↦ ⟨(h l hl).1, fun entry hentry ↦ (h l hl).2 entry (List.mem_filter.mp hentry).1⟩

theorem AvoidsLabels.enter {σ : Substitution} {names : List (NameRole × String)}
    (h : AvoidsLabels σ names) (name : String) (body : Core) :
    AvoidsLabels (enter σ name body).2 names := by
  rcases enter_cases σ name body with ⟨henter, -⟩ | ⟨fresh, henter, hprimed, -⟩
  · rw [henter]
    exact h.without name
  · rw [henter]
    intro l hl
    refine ⟨(h l hl).1, fun entry hentry ↦ ?_⟩
    simp only [insert, List.mem_append, List.mem_singleton] at hentry
    rcases hentry with hentry | rfl
    · exact (h l hl).2 entry (List.mem_filter.mp (List.mem_filter.mp hentry).1).1
    · simp only [Core.freeNames, List.mem_singleton]
      rintro rfl
      exact (h l hl).1 hprimed

/-- Below a binder, what stands for the other names is the same, lifted. -/
theorem nameless_image_enter {σ : Substitution} {name : String} {body : Core} {τ : Ref → Nameless}
    {scope scope' : List String} (hσ : AvoidsAnonymous σ)
    (h : ∀ x ∈ body.freeNames.filter (· != name),
      τ (.ofName scope x) = (image σ x).nameless scope') :
    ∀ x ∈ body.freeNames, Nameless.lift τ (.ofName (name :: scope) x) =
      (image (enter σ name body).2 x).nameless ((enter σ name body).1 :: scope') := by
  intro x hx
  rw [image_enter]
  by_cases hname : x = name
  · rw [if_pos hname, hname, Ref.ofName_cons_self, Core.nameless, Ref.ofName_cons_self]
    rfl
  · have hfresh : (Substitution.enter σ name body).1 ∉ (image σ x).freeNames :=
      enter_not_mem_image (fun hanonymous ↦ hσ x (hanonymous ▸ hname)) hx hname
    rw [if_neg hname, Ref.ofName_cons_of_ne hname, Nameless.lift_rename_succ,
      Core.nameless_cons hfresh, h x (by simpa [hname] using hx)]

/-- Below a label, which is never renamed. -/
theorem nameless_image_without {σ : Substitution} {l : String} {xs scope scope' : List String}
    {τ : Ref → Nameless} (hl : ∀ entry ∈ σ, l ∉ entry.2.freeNames)
    (h : ∀ x ∈ xs.filter (· != l), τ (.ofName scope x) = (image σ x).nameless scope') :
    ∀ x ∈ xs, Nameless.lift τ (.ofName (l :: scope) x) =
      (image (without σ l) x).nameless (l :: scope') := by
  intro x hx
  rw [image_without]
  by_cases hname : x = l
  · rw [if_pos hname, hname, Ref.ofName_cons_self, Core.nameless, Ref.ofName_cons_self]
    rfl
  · have hfresh : l ∉ (image σ x).freeNames := by
      cases hget : get? σ x with
      | none => simpa [image, hget, Core.freeNames] using Ne.symm hname
      | some s => simpa [image, hget] using hl _ (mem_of_get? hget)
    rw [if_neg hname, Ref.ofName_cons_of_ne hname, Nameless.lift_rename_succ,
      Core.nameless_cons hfresh, h x (by simpa [hname] using hx)]

end Substitution

mutual

/-- Substitution of terms for names is substitution of their nameless forms for the variables that
the names refer to. -/
theorem Core.nameless_subst {τ : Ref → Nameless} {scope scope' : List String} :
    (t : Core) → (σ : Substitution) → σ.AvoidsAnonymous → σ.AvoidsLabels t.names →
      (∀ x ∈ t.freeNames, τ (.ofName scope x) = (σ.image x).nameless scope') →
      (t.nameless scope).subst τ = (t.subst σ).nameless scope'
  | t, [], _, _, h => by
    rw [Core.subst_nil]
    exact t.nameless_scope h
  | .univ _, _ :: _, _, _, _ | .const _, _ :: _, _, _, _ => rfl
  | .quant _ _ domain name codomain, entry :: σ, hσ, hl, h => by
    obtain ⟨hdomain, hcodomain⟩ := List.forall_mem_append.mp h
    have hd := domain.nameless_subst _ hσ (hl.subset (by simp [Core.names])) hdomain
    have hc := codomain.nameless_subst _ (hσ.enter name codomain)
      ((hl.subset (by simp [Core.names])).enter name codomain)
      (Substitution.nameless_image_enter hσ hcodomain)
    simp only [Core.subst, List.isEmpty_cons, Bool.false_eq_true, ↓reduceIte, Core.nameless,
      Nameless.subst, hd, hc]
  | .signature members, entry :: σ, hσ, hl, h =>
    congrArg Nameless.signature (members.nameless_subst _ hσ hl h)
  | .lam param _ body, entry :: σ, hσ, hl, h =>
    congrArg Nameless.lam (body.nameless_subst _ (hσ.enter param body)
      ((hl.subset (List.subset_cons_self _ _)).enter param body)
      (Substitution.nameless_image_enter hσ h))
  | .record members, entry :: σ, hσ, hl, h =>
    congrArg Nameless.record (Core.namelessMembers_subst members _ hσ hl h)
  | .app _ type operator operand, entry :: σ, hσ, hl, h => by
    obtain ⟨h, hoperand⟩ := List.forall_mem_append.mp h
    obtain ⟨htype, hoperator⟩ := List.forall_mem_append.mp h
    have ht := type.nameless_subst _ hσ (hl.subset (by simp [Core.names])) htype
    have ho := operator.nameless_subst _ hσ (hl.subset (by simp [Core.names])) hoperator
    have ha := operand.nameless_subst _ hσ (hl.subset (by simp [Core.names])) hoperand
    simp only [Core.subst, List.isEmpty_cons, Bool.false_eq_true, ↓reduceIte, Core.nameless,
      Nameless.subst, ht, ho, ha]
  | .proj _ type operator _, entry :: σ, hσ, hl, h => by
    obtain ⟨htype, hoperator⟩ := List.forall_mem_append.mp h
    have ht := type.nameless_subst _ hσ (hl.subset (by simp [Core.names])) htype
    have ho := operator.nameless_subst _ hσ (hl.subset (by simp [Core.names])) hoperator
    simp only [Core.subst, List.isEmpty_cons, Bool.false_eq_true, ↓reduceIte, Core.nameless,
      Nameless.subst, ht, ho]
  | .var x, entry :: σ, _, _, h => h x (by simp [Core.freeNames])

theorem Telescope.nameless_subst {τ : Ref → Nameless} {scope scope' : List String} :
    (t : Telescope) → (σ : Substitution) → σ.AvoidsAnonymous → σ.AvoidsLabels t.names →
      (∀ x ∈ t.freeNames, τ (.ofName scope x) = (σ.image x).nameless scope') →
      (t.nameless scope).subst τ = (t.subst σ).nameless scope'
  | .nil, _, _, _, _ => rfl
  | .cons _ type name rest, σ, hσ, hl, h => by
    obtain ⟨htype, hrest⟩ := List.forall_mem_append.mp h
    have hlabel := (hl name (by simp [Telescope.names])).2
    have ht := type.nameless_subst σ hσ (hl.subset (by simp [Telescope.names])) htype
    have hr := rest.nameless_subst _ (hσ.without name)
      ((hl.subset (by simp [Telescope.names])).without name)
      (Substitution.nameless_image_without hlabel hrest)
    simp only [Telescope.subst, Telescope.nameless, Nameless.subst, ht, hr]

theorem Core.namelessMembers_subst {τ : Ref → Nameless} {scope scope' : List String} :
    (ts : List Core) → (σ : Substitution) → σ.AvoidsAnonymous →
      σ.AvoidsLabels (Core.namesMembers ts) →
      (∀ x ∈ Core.freeNamesMembers ts, τ (.ofName scope x) = (σ.image x).nameless scope') →
      (Core.namelessMembers scope ts).subst τ =
        Core.namelessMembers scope' (Core.substMembers σ ts)
  | [], _, _, _, _ => rfl
  | m :: ms, σ, hσ, hl, h => by
    obtain ⟨hm, hms⟩ := List.forall_mem_append.mp h
    have hhead := m.nameless_subst σ hσ (hl.subset (List.subset_append_left _ _)) hm
    have htail := Core.namelessMembers_subst ms σ hσ (hl.subset (List.subset_append_right _ _)) hms
    simp only [Core.substMembers, Core.namelessMembers, Nameless.subst, hhead, htail]

end

end RankedTT
