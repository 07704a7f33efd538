import RankedTT.Proofs.Normalizes
import RankedTT.Proofs.Substitution

/-!
The names of normal forms. A name that is free in the normal form of a term is free in what stands
for a free name of the term; every other name comes from the term, from the values of the names it
mentions, from priming a renamed binder, or from the counter. The counter never goes down.
-/

set_option autoImplicit false
set_option relaxedAutoImplicit false

namespace RankedTT

/-! ### The counter -/

mutual

theorem Core.Normalizes.counter_le {env : NormEnv} {t n : Core} {c c' : Nat} :
    t.Normalizes env c n c' → c ≤ c'
  | .univ | .const | .var => Nat.le_refl c
  | .quant hdomain hcodomain => by
    have hd := hdomain.counter_le
    have hc := hcodomain.counter_le
    exact Nat.le_trans hd (Nat.le_trans (NormEnv.bind_counter_ge _ _ _) hc)
  | .signature hmembers => hmembers.counter_le
  | .lam hbody => Nat.le_trans (NormEnv.bind_counter_ge _ _ _) hbody.counter_le
  | .record hmembers => hmembers.counter_le
  | .beta hoperator hoperand hresult =>
    Nat.le_trans hoperator.counter_le (Nat.le_trans hoperand.counter_le hresult.counter_le)
  | .app hoperator _ hoperand htype =>
    Nat.le_trans hoperator.counter_le (Nat.le_trans hoperand.counter_le htype.counter_le)
  | .select hoperator _ => hoperator.counter_le
  | .proj hoperator _ htype => Nat.le_trans hoperator.counter_le htype.counter_le

theorem Telescope.Normalizes.counter_le {env : NormEnv} {t n : Telescope} {c c' : Nat} :
    t.Normalizes env c n c' → c ≤ c'
  | .nil => Nat.le_refl c
  | .cons htype hrest => Nat.le_trans htype.counter_le hrest.counter_le

theorem Core.NormalizesMembers.counter_le {env : NormEnv} {ts ns : List Core} {c c' : Nat} :
    Core.NormalizesMembers env ts c ns c' → c ≤ c'
  | .nil => Nat.le_refl c
  | .cons hhead htail => Nat.le_trans hhead.counter_le htail.counter_le

end

/-! ### Free names -/

/-- Names that come out of the scope of a binder. -/
theorem NormEnv.mem_image_of_bind {env : NormEnv} {name : String} {c : Nat} {body : Core}
    {x : String}
    (h : ∃ y ∈ body.freeNames, x ∈ (NormEnv.image (NormEnv.bind env name c).1.2 y).freeNames)
    (hx : x ≠ (NormEnv.bind env name c).1.1) :
    ∃ y ∈ body.freeNames.filter (· != name), x ∈ (NormEnv.image env y).freeNames := by
  obtain ⟨y, hy, hmem⟩ := h
  rw [NormEnv.image_bind] at hmem
  split at hmem
  · simp only [Core.freeNames, List.mem_singleton] at hmem
    exact absurd hmem hx
  · rename_i hne
    exact ⟨y, by simpa [hne] using hy, hmem⟩

/-- The free names of a reduct are free in the lambda or in the operand. -/
theorem Core.mem_freeNames_reduct {param : String} {body operand : Core} {x : String}
    (h : x ∈ (body.subst (.single param operand)).freeNames) :
    x ∈ (body.freeNames.filter (· != param)) ∨ x ∈ operand.freeNames := by
  obtain ⟨y, hy, hmem⟩ := body.mem_freeNames_subst _ h
  rw [Substitution.image_single] at hmem
  split at hmem
  · exact .inr hmem
  · rename_i hne
    simp only [Core.freeNames, List.mem_singleton] at hmem
    subst hmem
    exact .inl (by simpa [hne] using hy)

theorem Core.mem_freeNamesMembers_of_getElem {members : List Core} {index : Nat} {member : Core}
    (hmember : members[index]? = some member) {x : String} (hx : x ∈ member.freeNames) :
    x ∈ Core.freeNamesMembers members := by
  induction members generalizing index with
  | nil => simp at hmember
  | cons m ms ih =>
    rw [Core.freeNamesMembers, List.mem_append]
    cases index with
    | zero =>
      simp only [List.getElem?_cons_zero, Option.some.injEq] at hmember
      exact .inl (hmember ▸ hx)
    | succ index => exact .inr (ih (by simpa using hmember))

mutual

theorem Core.Normalizes.mem_freeNames {x : String} {env : NormEnv} {t n : Core} {c c' : Nat} :
    t.Normalizes env c n c' → x ∈ n.freeNames →
      ∃ y ∈ t.freeNames, x ∈ (NormEnv.image env y).freeNames
  | .univ, h | .const, h => by simp [Core.freeNames] at h
  | .var, h => ⟨_, by simp [Core.freeNames], h⟩
  | .quant hdomain hcodomain, h => by
    simp only [Core.freeNames, List.mem_append, List.mem_filter, bne_iff_ne] at h
    rcases h with h | ⟨h, hx⟩
    · obtain ⟨y, hy, hmem⟩ := hdomain.mem_freeNames h
      exact ⟨y, List.mem_append_left _ hy, hmem⟩
    · obtain ⟨y, hy, hmem⟩ := NormEnv.mem_image_of_bind (hcodomain.mem_freeNames h) hx
      exact ⟨y, List.mem_append_right _ hy, hmem⟩
  | .signature hmembers, h => hmembers.mem_freeNames h
  | .lam hbody, h => by
    simp only [Core.freeNames, List.mem_filter, bne_iff_ne] at h
    exact NormEnv.mem_image_of_bind (hbody.mem_freeNames h.1) h.2
  | .record hmembers, h => hmembers.mem_freeNames h
  | .beta hoperator hoperand hresult, h => by
    obtain ⟨y, hy, hmem⟩ := hresult.mem_freeNames h
    simp only [NormEnv.image_nil, Core.freeNames, List.mem_singleton] at hmem
    subst hmem
    simp only [Core.freeNames, List.mem_append]
    rcases Core.mem_freeNames_reduct hy with hbody | hargument
    · obtain ⟨y, hy, hmem⟩ := hoperator.mem_freeNames hbody
      exact ⟨y, .inl (.inr hy), hmem⟩
    · obtain ⟨y, hy, hmem⟩ := hoperand.mem_freeNames hargument
      exact ⟨y, .inr hy, hmem⟩
  | .app hoperator _ hoperand htype, h => by
    simp only [Core.freeNames, List.mem_append] at h ⊢
    rcases h with (h | h) | h
    · obtain ⟨y, hy, hmem⟩ := htype.mem_freeNames h
      exact ⟨y, .inl (.inl hy), hmem⟩
    · obtain ⟨y, hy, hmem⟩ := hoperator.mem_freeNames h
      exact ⟨y, .inl (.inr hy), hmem⟩
    · obtain ⟨y, hy, hmem⟩ := hoperand.mem_freeNames h
      exact ⟨y, .inr hy, hmem⟩
  | .select hoperator hmember, h => by
    obtain ⟨y, hy, hmem⟩ :=
      hoperator.mem_freeNames (Core.mem_freeNamesMembers_of_getElem hmember h)
    exact ⟨y, List.mem_append_right _ hy, hmem⟩
  | .proj hoperator _ htype, h => by
    simp only [Core.freeNames, List.mem_append] at h ⊢
    rcases h with h | h
    · obtain ⟨y, hy, hmem⟩ := htype.mem_freeNames h
      exact ⟨y, .inl hy, hmem⟩
    · obtain ⟨y, hy, hmem⟩ := hoperator.mem_freeNames h
      exact ⟨y, .inr hy, hmem⟩

theorem Telescope.Normalizes.mem_freeNames {x : String} {env : NormEnv} {t n : Telescope}
    {c c' : Nat} :
    t.Normalizes env c n c' → x ∈ n.freeNames →
      ∃ y ∈ t.freeNames, x ∈ (NormEnv.image env y).freeNames
  | .nil, h => by simp [Telescope.freeNames] at h
  | .cons htype hrest, h => by
    simp only [Telescope.freeNames, List.mem_append, List.mem_filter, bne_iff_ne] at h
    rcases h with h | ⟨h, hx⟩
    · obtain ⟨y, hy, hmem⟩ := htype.mem_freeNames h
      exact ⟨y, List.mem_append_left _ hy, hmem⟩
    · obtain ⟨y, hy, hmem⟩ := hrest.mem_freeNames h
      rw [NormEnv.image_push] at hmem
      split at hmem
      · simp only [Core.freeNames, List.mem_singleton] at hmem
        exact absurd hmem hx
      · rename_i hne
        exact ⟨y, List.mem_append_right _ (by simpa [hne] using hy), hmem⟩

theorem Core.NormalizesMembers.mem_freeNames {x : String} {env : NormEnv} {ts ns : List Core}
    {c c' : Nat} :
    Core.NormalizesMembers env ts c ns c' → x ∈ Core.freeNamesMembers ns →
      ∃ y ∈ Core.freeNamesMembers ts, x ∈ (NormEnv.image env y).freeNames
  | .nil, h => by simp [Core.freeNamesMembers] at h
  | .cons hhead htail, h => by
    simp only [Core.freeNamesMembers, List.mem_append] at h ⊢
    rcases h with h | h
    · obtain ⟨y, hy, hmem⟩ := hhead.mem_freeNames h
      exact ⟨y, .inl hy, hmem⟩
    · obtain ⟨y, hy, hmem⟩ := htail.mem_freeNames h
      exact ⟨y, .inr hy, hmem⟩

end

/-! ### All names -/

/-- Where a name of a normal form comes from, for a term with the names `sources`: it is one of
them, or a name of what stands for a variable among them, or a new name for a binder or its
variable, which is primed or generated with a number from `c` up to `c'`. -/
def NormEnv.Origin (env : NormEnv) (sources : List (NameRole × String)) (c c' : Nat)
    (r : NameRole) (x : String) : Prop :=
  (r, x) ∈ sources ∨ (∃ y, (.reference, y) ∈ sources ∧ (r, x) ∈ (NormEnv.image env y).names) ∨
    (r ≠ .label ∧ (IsPrimed x ∨ ∃ k, c ≤ k ∧ k < c' ∧ x = generatedName k))

namespace NormEnv.Origin

variable {env : NormEnv} {sources more : List (NameRole × String)} {c c₁ c₂ c' : Nat}
  {r : NameRole} {x : String}

theorem mono (h : Origin env sources c₁ c₂ r x) (hsources : sources ⊆ more) (hc : c ≤ c₁)
    (hc' : c₂ ≤ c') : Origin env more c c' r x := by
  rcases h with h | ⟨y, hy, h⟩ | ⟨hr, h⟩
  · exact .inl (hsources h)
  · exact .inr (.inl ⟨y, hsources hy, h⟩)
  · refine .inr (.inr ⟨hr, h.imp_right ?_⟩)
    rintro ⟨k, hk, hk', rfl⟩
    exact ⟨k, Nat.le_trans hc hk, Nat.lt_of_lt_of_le hk' hc', rfl⟩

theorem of_push {name : String} (h : Origin (Env.push env name (.var name)) sources c c' r x) :
    Origin env sources c c' r x := by
  rcases h with h | ⟨y, hy, h⟩ | h
  · exact .inl h
  · rw [NormEnv.image_push] at h
    split at h
    · rename_i hname
      simp only [Core.names, List.mem_singleton, Prod.mk.injEq] at h
      obtain ⟨rfl, rfl⟩ := h
      exact .inl (hname ▸ hy)
    · exact .inr (.inl ⟨y, hy, h⟩)
  · exact .inr (.inr h)

theorem of_bind {name : String} (hc : (NormEnv.bind env name c).2 ≤ c')
    (h : Origin (NormEnv.bind env name c).1.2 sources (NormEnv.bind env name c).2 c' r x) :
    Origin env sources c c' r x := by
  rcases h with h | ⟨y, hy, h⟩ | h
  · exact .inl h
  · rw [NormEnv.image_bind] at h
    split at h
    · rename_i hname
      simp only [Core.names, List.mem_singleton, Prod.mk.injEq] at h
      obtain ⟨rfl, rfl⟩ := h
      rcases NormEnv.bind_cases env name c with ⟨hbind, -⟩ | ⟨k, hk, hbind, -⟩
      · rw [hbind]
        exact .inl (hname ▸ hy)
      · rw [hbind] at hc ⊢
        exact .inr (.inr ⟨by simp, .inr ⟨k, hk, hc, rfl⟩⟩)
    · exact .inr (.inl ⟨y, hy, h⟩)
  · exact mono (.inr (.inr h)) (fun _ hp ↦ hp) (NormEnv.bind_counter_ge _ _ _) (Nat.le_refl _)

theorem of_binder {name : String} (hc : (NormEnv.bind env name c).2 ≤ c')
    (hname : (.binder, name) ∈ sources)
    (h : (r, x) = (.binder, (NormEnv.bind env name c).1.1)) : Origin env sources c c' r x := by
  obtain ⟨rfl, rfl⟩ := Prod.mk.inj h
  rcases NormEnv.bind_cases env name c with ⟨hbind, -⟩ | ⟨k, hk, hbind, -⟩
  · rw [hbind]
    exact .inl hname
  · rw [hbind] at hc ⊢
    exact .inr (.inr ⟨by simp, .inr ⟨k, hk, hc, rfl⟩⟩)

/-- The names of a normalized reduct are names of the lambda or of the operand, or new. -/
theorem of_reduct {param : String} {body operand : Core}
    (hbody : (r, x) ∈ body.names → Origin env sources c c' r x)
    (hoperand : (r, x) ∈ operand.names → Origin env sources c c' r x)
    (hc : c ≤ c₁) (hc' : c₂ ≤ c')
    (h : Origin [] (body.subst (.single param operand)).names c₁ c₂ r x) :
    Origin env sources c c' r x := by
  have hsubst (hmem : (r, x) ∈ (body.subst (.single param operand)).names) :
      Origin env sources c c' r x := by
    rcases body.mem_names_subst _ hmem with hmem | ⟨entry, hentry, hmem⟩ | ⟨hr, hprimed⟩
    · exact hbody hmem
    · rw [Substitution.single, List.mem_singleton] at hentry
      subst hentry
      exact hoperand hmem
    · exact .inr (.inr ⟨hr, .inl hprimed⟩)
  rcases h with h | ⟨y, hy, h⟩ | h
  · exact hsubst h
  · simp only [NormEnv.image_nil, Core.names, List.mem_singleton, Prod.mk.injEq] at h
    obtain ⟨rfl, rfl⟩ := h
    exact hsubst hy
  · have hnew : Origin env sources c₁ c₂ r x := .inr (.inr h)
    exact hnew.mono (fun _ hp ↦ hp) hc hc'

end NormEnv.Origin

theorem Core.mem_namesMembers_of_getElem {members : List Core} {index : Nat} {member : Core}
    (hmember : members[index]? = some member) {p : NameRole × String} (hp : p ∈ member.names) :
    p ∈ Core.namesMembers members := by
  induction members generalizing index with
  | nil => simp at hmember
  | cons m ms ih =>
    rw [Core.namesMembers, List.mem_append]
    cases index with
    | zero =>
      simp only [List.getElem?_cons_zero, Option.some.injEq] at hmember
      exact .inl (hmember ▸ hp)
    | succ index => exact .inr (ih (by simpa using hmember))

mutual

theorem Core.Normalizes.origin {r : NameRole} {x : String} {env : NormEnv} {t n : Core}
    {c c' : Nat} :
    t.Normalizes env c n c' → (r, x) ∈ n.names → NormEnv.Origin env t.names c c' r x
  | .univ, h | .const, h => by simp [Core.names] at h
  | .var, h => .inr (.inl ⟨_, by simp [Core.names], h⟩)
  | .quant hdomain hcodomain, h => by
    have hbind := NormEnv.bind_counter_ge
    have hc := hdomain.counter_le
    have hc' := hcodomain.counter_le
    simp only [Core.names, List.mem_append, List.mem_cons] at h ⊢
    rcases h with h | h | h
    · exact (hdomain.origin h).mono (by simp) (Nat.le_refl _) (Nat.le_trans (hbind _ _ _) hc')
    · exact (NormEnv.Origin.of_binder hc' (by simp) h).mono (fun _ hp ↦ hp) hc (Nat.le_refl _)
    · exact (NormEnv.Origin.of_bind hc' (hcodomain.origin h)).mono
        (by simp [List.subset_def]; tauto) hc (Nat.le_refl _)
  | .signature hmembers, h => hmembers.origin h
  | .lam hbody, h => by
    simp only [Core.names, List.mem_cons] at h ⊢
    rcases h with h | h
    · exact NormEnv.Origin.of_binder hbody.counter_le (by simp) h
    · exact (NormEnv.Origin.of_bind hbody.counter_le (hbody.origin h)).mono (by simp)
        (Nat.le_refl _) (Nat.le_refl _)
  | .record hmembers, h => hmembers.origin h
  | .beta hoperator hoperand hresult, h => by
    have hc := hoperator.counter_le
    have hc' := hoperand.counter_le
    have hc'' := hresult.counter_le
    refine NormEnv.Origin.of_reduct (fun hmem ↦ ?_) (fun hmem ↦ ?_)
      (Nat.le_trans hc hc') (Nat.le_refl _) (hresult.origin h)
    · exact (hoperator.origin (List.mem_cons_of_mem _ hmem)).mono (by simp [Core.names])
        (Nat.le_refl _) (Nat.le_trans hc' hc'')
    · exact (hoperand.origin hmem).mono (by simp [Core.names]) hc hc''
  | .app hoperator _ hoperand htype, h => by
    have hc := hoperator.counter_le
    have hc' := hoperand.counter_le
    have hc'' := htype.counter_le
    simp only [Core.names, List.mem_append] at h ⊢
    rcases h with (h | h) | h
    · exact (htype.origin h).mono (by simp) (Nat.le_trans hc hc') (Nat.le_refl _)
    · exact (hoperator.origin h).mono (by simp) (Nat.le_refl _) (Nat.le_trans hc' hc'')
    · exact (hoperand.origin h).mono (by simp) hc hc''
  | .select hoperator hmember, h => by
    exact (hoperator.origin (Core.mem_namesMembers_of_getElem hmember h)).mono
      (by simp [Core.names]) (Nat.le_refl _) (Nat.le_refl _)
  | .proj hoperator _ htype, h => by
    simp only [Core.names, List.mem_append] at h ⊢
    rcases h with h | h
    · exact (htype.origin h).mono (by simp) hoperator.counter_le (Nat.le_refl _)
    · exact (hoperator.origin h).mono (by simp) (Nat.le_refl _) htype.counter_le

theorem Telescope.Normalizes.origin {r : NameRole} {x : String} {env : NormEnv} {t n : Telescope}
    {c c' : Nat} :
    t.Normalizes env c n c' → (r, x) ∈ n.names → NormEnv.Origin env t.names c c' r x
  | .nil, h => by simp [Telescope.names] at h
  | .cons htype hrest, h => by
    simp only [Telescope.names, List.mem_append, List.mem_cons] at h ⊢
    rcases h with h | h | h
    · exact (htype.origin h).mono (by simp) (Nat.le_refl _) hrest.counter_le
    · exact .inl (by simp [h])
    · exact (hrest.origin h).of_push.mono (by simp [List.subset_def]; tauto) htype.counter_le
        (Nat.le_refl _)

theorem Core.NormalizesMembers.origin {r : NameRole} {x : String} {env : NormEnv}
    {ts ns : List Core} {c c' : Nat} :
    Core.NormalizesMembers env ts c ns c' → (r, x) ∈ Core.namesMembers ns →
      NormEnv.Origin env (Core.namesMembers ts) c c' r x
  | .nil, h => by simp [Core.namesMembers] at h
  | .cons hhead htail, h => by
    simp only [Core.namesMembers, List.mem_append] at h ⊢
    rcases h with h | h
    · exact (hhead.origin h).mono (by simp) (Nat.le_refl _) htail.counter_le
    · exact (htail.origin h).mono (by simp) hhead.counter_le (Nat.le_refl _)

end

end RankedTT
