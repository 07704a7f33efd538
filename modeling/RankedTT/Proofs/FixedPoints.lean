import RankedTT.Proofs.NormalForms

/-!
Normal forms are fixed points. Below binders, an environment that begins empty maps every name to a
variable: to the name itself, or to the generated name of its binder. Under such an environment
nothing becomes a redex, so the normalizer calls itself for the parts of a normal form only and
comes to an end. If neither a free name nor a label is a generated one, no binder captures anything,
so nothing but the names of binders changes.
-/

set_option autoImplicit false
set_option relaxedAutoImplicit false

namespace RankedTT

open Nameless Relation Run

/-! ### Derivations are found -/

theorem Core.returns_mono {m k : Nat} (h : m ≤ k) {env : NormEnv} {t n : Core} {c c' : Nat}
    (hreturns : (t.normalize m env).Returns c n c') : (t.normalize k env).Returns c n c' :=
  hreturns.refine (Core.normalize_refines h env t)

mutual

/-- With enough fuel the normalizer gives the answer that is derived by the rules. -/
theorem Core.Normalizes.returns {env : NormEnv} {t n : Core} {c c' : Nat} :
    t.Normalizes env c n c' → ∃ fuel, (t.normalize fuel env).Returns c n c'
  | .univ | .const | .var => ⟨1, rfl⟩
  | .quant hdomain hcodomain => by
    obtain ⟨k, hk⟩ := hdomain.returns
    obtain ⟨m, hm⟩ := hcodomain.returns
    refine ⟨max k m + 1, ?_⟩
    simp only [Core.normalize, returns_bind_iff, returns_modifyGet_iff, returns_pure_iff]
    exact ⟨_, _, Core.returns_mono (Nat.le_max_left k m) hk, _, _, rfl, _, _,
      Core.returns_mono (Nat.le_max_right k m) hm, rfl, rfl⟩
  | .signature hmembers => by
    obtain ⟨k, hk⟩ := hmembers.returns
    refine ⟨k + 1, ?_⟩
    simp only [Core.normalize, returns_bind_iff, returns_pure_iff]
    exact ⟨_, _, hk, rfl, rfl⟩
  | .lam hbody => by
    obtain ⟨k, hk⟩ := hbody.returns
    refine ⟨k + 1, ?_⟩
    simp only [Core.normalize, returns_bind_iff, returns_modifyGet_iff, returns_pure_iff]
    exact ⟨_, _, rfl, _, _, hk, rfl, rfl⟩
  | .record hmembers => by
    obtain ⟨k, hk⟩ := hmembers.returns
    refine ⟨k + 1, ?_⟩
    simp only [Core.normalize, returns_bind_iff, returns_pure_iff]
    exact ⟨_, _, hk, rfl, rfl⟩
  | .beta hoperator hoperand hresult => by
    obtain ⟨k, hk⟩ := hoperator.returns
    obtain ⟨m, hm⟩ := hoperand.returns
    obtain ⟨l, hl⟩ := hresult.returns
    refine ⟨max k (max m l) + 1, ?_⟩
    simp only [Core.normalize, returns_bind_iff]
    exact ⟨_, _, Core.returns_mono (by omega) hk, _, _, Core.returns_mono (by omega) hm,
      Core.returns_mono (by omega) hl⟩
  | .app hoperator hstuck hoperand htype => by
    obtain ⟨k, hk⟩ := hoperator.returns
    obtain ⟨m, hm⟩ := hoperand.returns
    obtain ⟨l, hl⟩ := htype.returns
    refine ⟨max k (max m l) + 1, ?_⟩
    simp only [Core.normalize, returns_bind_iff]
    refine ⟨_, _, Core.returns_mono (by omega) hk, _, _,
      Core.returns_mono (by omega) hm, ?_⟩
    split
    · exact absurd rfl (hstuck _ _ _)
    · simp only [returns_bind_iff, returns_pure_iff]
      exact ⟨_, _, Core.returns_mono (by omega) hl, rfl, rfl⟩
  | .select hoperator hmember => by
    obtain ⟨k, hk⟩ := hoperator.returns
    refine ⟨k + 1, ?_⟩
    simp only [Core.normalize, returns_bind_iff]
    refine ⟨_, _, hk, ?_⟩
    simp only [hmember, returns_pure_iff, and_self]
  | .proj hoperator hstuck htype => by
    obtain ⟨k, hk⟩ := hoperator.returns
    obtain ⟨m, hm⟩ := htype.returns
    refine ⟨max k m + 1, ?_⟩
    simp only [Core.normalize, returns_bind_iff]
    refine ⟨_, _, Core.returns_mono (Nat.le_max_left k m) hk, ?_⟩
    split
    · exact absurd rfl (hstuck _)
    · simp only [returns_bind_iff, returns_pure_iff]
      exact ⟨_, _, Core.returns_mono (Nat.le_max_right k m) hm, rfl, rfl⟩

theorem Telescope.Normalizes.returns {env : NormEnv} {types types' : Telescope} {c c' : Nat} :
    types.Normalizes env c types' c' →
      ∃ fuel, (types.normalizeWith (Core.normalize fuel) env).Returns c types' c'
  | .nil => ⟨0, rfl⟩
  | .cons htype hrest => by
    obtain ⟨k, hk⟩ := htype.returns
    obtain ⟨m, hm⟩ := hrest.returns
    refine ⟨max k m, ?_⟩
    simp only [Telescope.normalizeWith, returns_bind_iff, returns_pure_iff]
    exact ⟨_, _, Core.returns_mono (Nat.le_max_left k m) hk, _, _,
      hm.refine (Telescope.normalizeWith_refines (Core.normalize_refines (Nat.le_max_right k m)) _ _),
      rfl, rfl⟩

theorem Core.NormalizesMembers.returns {env : NormEnv} {ts ns : List Core} {c c' : Nat} :
    Core.NormalizesMembers env ts c ns c' →
      ∃ fuel, (ts.mapM (Core.normalize fuel env)).Returns c ns c'
  | .nil => ⟨0, rfl⟩
  | .cons hhead htail => by
    obtain ⟨k, hk⟩ := hhead.returns
    obtain ⟨m, hm⟩ := htail.returns
    refine ⟨max k m, ?_⟩
    simp only [List.mapM_cons, returns_bind_iff, returns_pure_iff]
    exact ⟨_, _, Core.returns_mono (Nat.le_max_left k m) hk, _, _,
      hm.refine (.mapM (Core.normalize_refines (Nat.le_max_right k m) env) _), rfl, rfl⟩

end

/-! ### Environments of variables -/

/-- Every name in scope stands for a variable in scope: for itself, or for a generated name. -/
def NormEnv.Renames (env : NormEnv) : Prop :=
  ∀ x, Env.maps env x = true → ∃ y, NormEnv.image env x = .var y ∧ Env.maps env y = true ∧
    (y = x ∨ ∃ k, y = generatedName k)

namespace NormEnv.Renames

variable {env : NormEnv}

theorem nil : NormEnv.Renames [] := fun x hx ↦ by simp [Env.maps, Env.get?] at hx

theorem image (h : env.Renames) (x : String) : ∃ y, NormEnv.image env x = .var y := by
  by_cases hx : Env.maps env x = true
  · obtain ⟨y, hy, -⟩ := h x hx
    exact ⟨y, hy⟩
  · exact ⟨x, NormEnv.image_of_not_maps hx⟩

theorem bind (h : env.Renames) (name : String) (c : Nat) :
    NormEnv.Renames (NormEnv.bind env name c).1.2 := by
  intro x hx
  simp only [NormEnv.image_bind, NormEnv.maps_bind] at hx ⊢
  by_cases hname : x = name
  · refine ⟨_, if_pos hname, .inr (.inl rfl), ?_⟩
    rcases NormEnv.bind_cases env name c with ⟨h, -⟩ | ⟨k, -, h, -⟩
    · exact .inl (by rw [h, hname])
    · exact .inr ⟨k, by rw [h]⟩
  · rw [if_neg hname]
    by_cases hmaps : Env.maps env x = true
    · obtain ⟨y, hy, hymaps, hyname⟩ := h x hmaps
      exact ⟨y, hy, .inr (.inr hymaps), hyname⟩
    · exact ⟨x, NormEnv.image_of_not_maps hmaps, hx, .inl rfl⟩

theorem push (h : env.Renames) (name : String) :
    NormEnv.Renames (Env.push env name (.var name)) := by
  have hmaps {x : String} :
      Env.maps (Env.push env name (.var name)) x = true ↔ x = name ∨ Env.maps env x = true := by
    simp [NormEnv.maps_iff_mem, Env.push]
  intro x hx
  rw [NormEnv.image_push]
  by_cases hname : x = name
  · exact ⟨name, if_pos hname, hmaps.mpr (.inl rfl), .inl hname.symm⟩
  · obtain ⟨y, hy, hymaps, hyname⟩ := h x ((hmaps.mp hx).resolve_left hname)
    exact ⟨y, by rw [if_neg hname, hy], hmaps.mpr (.inr hymaps), hyname⟩

end NormEnv.Renames

/-! ### Heads -/

/-- A renamed normal form has a head of the same kind, so nothing is contracted. -/
theorem Core.Normalizes.isLambda_isRecord {env : NormEnv} {t n : Core} {c c' : Nat}
    (h : t.Normalizes env c n c') (ht : t.isRedexFree = true) (henv : env.Renames) :
    n.isLambda = t.isLambda ∧ n.isRecord = t.isRecord := by
  cases t with
  | app rank type operator operand =>
    cases h with
    | beta hoperator =>
      simp only [Core.isRedexFree, Bool.and_eq_true, Bool.not_eq_true'] at ht
      have hhead := (hoperator.isLambda_isRecord ht.1.1.2 henv).1
      rw [ht.2] at hhead
      cases hhead
    | app => exact ⟨rfl, rfl⟩
  | proj rank type operator index =>
    cases h with
    | select hoperator =>
      simp only [Core.isRedexFree, Bool.and_eq_true, Bool.not_eq_true'] at ht
      have hhead := (hoperator.isLambda_isRecord ht.1.2 henv).2
      rw [ht.2] at hhead
      cases hhead
    | proj => exact ⟨rfl, rfl⟩
  | var x =>
    cases h
    obtain ⟨y, hy⟩ := henv.image x
    rw [hy]
    exact ⟨rfl, rfl⟩
  | _ =>
    cases h
    exact ⟨rfl, rfl⟩

theorem Core.Normalizes.ne_lam {env : NormEnv} {t n : Core} {c c' : Nat}
    (h : t.Normalizes env c n c') (ht : t.isRedexFree = true) (henv : env.Renames)
    (hhead : t.isLambda = false) (param : String) (stamp : Stamp) (body : Core) :
    n ≠ .lam param stamp body := by
  rintro rfl
  have hsame := (h.isLambda_isRecord ht henv).1
  rw [hhead] at hsame
  cases hsame

theorem Core.Normalizes.ne_record {env : NormEnv} {t n : Core} {c c' : Nat}
    (h : t.Normalizes env c n c') (ht : t.isRedexFree = true) (henv : env.Renames)
    (hhead : t.isRecord = false) (members : List Core) : n ≠ .record members := by
  rintro rfl
  have hsame := (h.isLambda_isRecord ht henv).2
  rw [hhead] at hsame
  cases hsame

/-! ### Termination -/

mutual

/-- Nothing is contracted in a renamed normal form, so the recursion is that over its parts. -/
theorem Core.exists_normalizes (env : NormEnv) (henv : env.Renames) (c : Nat) : (t : Core) →
    t.isRedexFree = true → ∃ n c', t.Normalizes env c n c'
  | .univ _, _ => ⟨_, _, .univ⟩
  | .const _, _ => ⟨_, _, .const⟩
  | .var _, _ => ⟨_, _, .var⟩
  | .quant _ _ domain name codomain, h => by
    simp only [Core.isRedexFree, Bool.and_eq_true] at h
    obtain ⟨_, c₁, hd⟩ := domain.exists_normalizes env henv c h.1
    obtain ⟨_, _, hc⟩ := codomain.exists_normalizes _ (henv.bind name c₁) _ h.2
    exact ⟨_, _, .quant hd hc⟩
  | .signature members, h => by
    obtain ⟨_, _, hms⟩ := members.exists_normalizes env henv c h
    exact ⟨_, _, .signature hms⟩
  | .lam param _ body, h => by
    obtain ⟨_, _, hb⟩ := body.exists_normalizes _ (henv.bind param c) _ h
    exact ⟨_, _, .lam hb⟩
  | .record members, h => by
    obtain ⟨_, _, hms⟩ := Core.exists_normalizesMembers env henv c members h
    exact ⟨_, _, .record hms⟩
  | .app _ type operator operand, h => by
    simp only [Core.isRedexFree, Bool.and_eq_true, Bool.not_eq_true'] at h
    obtain ⟨⟨⟨htype, hoperator⟩, hoperand⟩, hhead⟩ := h
    obtain ⟨_, c₁, ho⟩ := operator.exists_normalizes env henv c hoperator
    obtain ⟨_, c₂, ha⟩ := operand.exists_normalizes env henv c₁ hoperand
    obtain ⟨_, _, hty⟩ := type.exists_normalizes env henv c₂ htype
    exact ⟨_, _, .app ho (ho.ne_lam hoperator henv hhead) ha hty⟩
  | .proj _ type operator _, h => by
    simp only [Core.isRedexFree, Bool.and_eq_true, Bool.not_eq_true'] at h
    obtain ⟨⟨htype, hoperator⟩, hhead⟩ := h
    obtain ⟨_, c₁, ho⟩ := operator.exists_normalizes env henv c hoperator
    obtain ⟨_, _, hty⟩ := type.exists_normalizes env henv c₁ htype
    exact ⟨_, _, .proj ho (ho.ne_record hoperator henv hhead) hty⟩

theorem Telescope.exists_normalizes (env : NormEnv) (henv : env.Renames) (c : Nat) :
    (types : Telescope) → types.isRedexFree = true → ∃ types' c', types.Normalizes env c types' c'
  | .nil, _ => ⟨_, _, .nil⟩
  | .cons _ type name rest, h => by
    simp only [Telescope.isRedexFree, Bool.and_eq_true] at h
    obtain ⟨_, c₁, hty⟩ := type.exists_normalizes env henv c h.1
    obtain ⟨_, _, hr⟩ := rest.exists_normalizes _ (henv.push name) c₁ h.2
    exact ⟨_, _, .cons hty hr⟩

theorem Core.exists_normalizesMembers (env : NormEnv) (henv : env.Renames) (c : Nat) :
    (members : List Core) → Core.isRedexFreeMembers members = true →
      ∃ ns c', Core.NormalizesMembers env members c ns c'
  | [], _ => ⟨_, _, .nil⟩
  | m :: ms, h => by
    simp only [Core.isRedexFreeMembers, Bool.and_eq_true] at h
    obtain ⟨_, c₁, hm⟩ := m.exists_normalizes env henv c h.1
    obtain ⟨_, _, hms⟩ := Core.exists_normalizesMembers env henv c₁ ms h.2
    exact ⟨_, _, .cons hm hms⟩

end

/-! ### No capture -/

/-- What is normalized has no redex; its free names that are not in scope, and its labels, are not
generated. -/
structure Core.Renamable (env : NormEnv) (t : Core) : Prop where
  redexFree : t.isRedexFree = true
  free : ∀ x ∈ t.freeNames, Env.maps env x = true ∨ ∀ k, x ≠ generatedName k
  labels : ∀ k, (.label, generatedName k) ∉ t.names

namespace Core.Renamable

variable {env env' : NormEnv} {s t : Core}

/-- An immediate part that is not below a binder. -/
theorem part (h : t.Renamable env) (hs : s ∈ t.parts) (hnames : s.names ⊆ t.names)
    (hfree : s.freeNames ⊆ t.freeNames) : s.Renamable env where
  redexFree := (Core.isRedexFree_iff_parts.mp h.redexFree).2 s hs
  free x hx := h.free x (hfree hx)
  labels k hk := h.labels k (hnames hk)

/-- A part below a binder or a label, which brings a name into scope. -/
theorem below (h : t.Renamable env) {name : String} (hs : s.isRedexFree = true)
    (hnames : s.names ⊆ t.names) (hfree : s.freeNames.filter (· != name) ⊆ t.freeNames)
    (hmaps : ∀ x, x = name ∨ Env.maps env x = true → Env.maps env' x = true) :
    s.Renamable env' where
  redexFree := hs
  free x hx := by
    by_cases hname : x = name
    · exact .inl (hmaps x (.inl hname))
    · exact (h.free x (hfree (by simp [hx, hname]))).imp_left fun hx ↦ hmaps x (.inr hx)
  labels k hk := h.labels k (hnames hk)

end Core.Renamable

theorem NormEnv.maps_bind_of_maps {env : NormEnv} {name : String} {c : Nat} (x : String)
    (h : x = name ∨ Env.maps env x = true) : Env.maps (NormEnv.bind env name c).1.2 x = true :=
  NormEnv.maps_bind.mpr (h.imp_right .inr)

theorem NormEnv.maps_push_of_maps {env : NormEnv} {name : String} {value : Core} (x : String)
    (h : x = name ∨ Env.maps env x = true) : Env.maps (Env.push env name value) x = true := by
  simpa [NormEnv.maps_iff_mem, Env.push] using h

namespace Call

def env : Call → NormEnv
  | core env _ _ | telescope env _ _ | members env _ _ => env

/-- What is normalized, as a term. -/
def term : Call → Core
  | core _ t _ => t
  | telescope _ types _ => .signature types
  | members _ ts _ => .record ts

/-- The call is for a normal form, under an environment that renames. -/
def Renames (call : Call) : Prop := call.env.Renames ∧ call.term.Renamable call.env

end Call

/-- A call under an environment that renames makes only such calls, and none for a reduct. -/
theorem Call.Renames.makes {call call' : Call} (h : call.Renames) (hmakes : call.Makes call') :
    call'.Renames := by
  obtain ⟨henv, ht⟩ := h
  cases hmakes with
  | domain | operator | operand | appType | projected | projType =>
    exact ⟨henv, ht.part (by simp [Call.term, Core.parts]) (by simp [Call.term, Core.names])
      (by simp [Call.term, Core.freeNames])⟩
  | declared =>
    exact ⟨henv, ht.part (by simp [Call.term, Core.parts, Telescope.types])
      (by simp [Call.term, Core.names, Telescope.names])
      (by simp [Call.term, Core.freeNames, Telescope.freeNames])⟩
  | head =>
    exact ⟨henv, ht.part (by simp [Call.term, Core.parts])
      (by simp [Call.term, Core.names, Core.namesMembers])
      (by simp [Call.term, Core.freeNames, Core.freeNamesMembers])⟩
  | codomain =>
    have hfree := ht.redexFree
    simp only [Call.term, Core.isRedexFree, Bool.and_eq_true] at hfree
    exact ⟨henv.bind _ _, ht.below hfree.2 (by simp [Call.term, Core.names])
      (by simp [Call.term, Core.freeNames]) NormEnv.maps_bind_of_maps⟩
  | body =>
    exact ⟨henv.bind _ _, ht.below ht.redexFree (by simp [Call.term, Core.names])
      (by simp [Call.term, Core.freeNames]) NormEnv.maps_bind_of_maps⟩
  | rest =>
    have hfree := ht.redexFree
    simp only [Call.term, Core.isRedexFree, Telescope.isRedexFree, Bool.and_eq_true] at hfree
    exact ⟨henv.push _, ht.below hfree.2 (by simp [Call.term, Core.names, Telescope.names])
      (by simp [Call.term, Core.freeNames, Telescope.freeNames]) NormEnv.maps_push_of_maps⟩
  | tail =>
    have hfree := ht.redexFree
    simp only [Call.term, Core.isRedexFree, Core.isRedexFreeMembers, Bool.and_eq_true] at hfree
    exact ⟨henv, ⟨hfree.2, fun x hx ↦ ht.free x (List.mem_append_right _ hx),
      fun k hk ↦ ht.labels k (List.mem_append_right _ hk)⟩⟩
  | signature | record => exact ⟨henv, ht⟩
  | reduct hoperator =>
    have hfree := ht.redexFree
    simp only [Call.term, Core.isRedexFree, Bool.and_eq_true, Bool.not_eq_true'] at hfree
    exact absurd rfl (hoperator.ne_lam hfree.1.1.2 henv hfree.2 _ _ _)

/-- A variable that another name stands for is not the new name of a binder. -/
theorem NormEnv.Renames.bind_not_mem_image {env : NormEnv} (henv : env.Renames) {name x : String}
    {c : Nat} (hx : Env.maps env x = true ∨ ∀ k, x ≠ generatedName k) (hname : x ≠ name) :
    (NormEnv.bind env name c).1.1 ∉ (NormEnv.image env x).freeNames := by
  intro hmem
  by_cases hmaps : Env.maps env x = true
  · obtain ⟨y, hy, hymaps, hyname⟩ := henv x hmaps
    rw [hy, Core.freeNames, List.mem_singleton] at hmem
    subst hmem
    rcases NormEnv.bind_cases env name c with ⟨hbind, hbinder⟩ | ⟨k, -, hbind, hfresh, -⟩
    · rw [hbind] at hymaps hyname
      rcases hbinder with rfl | hbinder
      · -- The anonymous binder: only the anonymous name stands for it.
        rcases hyname with hyname | ⟨k, hyname⟩
        · exact hname hyname.symm
        · exact generatedName_ne_anonymous k hyname.symm
      · rw [hbinder] at hymaps
        simp at hymaps
    · rw [hbind, hfresh] at hymaps
      simp at hymaps
  · rw [NormEnv.image_of_not_maps hmaps, Core.freeNames, List.mem_singleton] at hmem
    rcases NormEnv.bind_cases env name c with ⟨hbind, -⟩ | ⟨k, -, hbind, -⟩
    · rw [hbind] at hmem
      exact hname hmem.symm
    · rw [hbind] at hmem
      exact (hx.resolve_left hmaps) k hmem.symm

theorem Call.Renames.not_captures {call : Call} (h : call.Renames) : ¬ call.Captures := by
  obtain ⟨henv, ht⟩ := h
  intro hcaptures
  cases hcaptures with
  | codomain hdomain hx hname hmem =>
    have hfree := ht.free _ (List.mem_append_right _ (List.mem_filter.mpr ⟨hx, by simpa⟩))
    exact henv.bind_not_mem_image hfree hname hmem
  | body hx hparam hmem =>
    have hfree := ht.free _ (List.mem_filter.mpr ⟨hx, by simpa⟩)
    exact henv.bind_not_mem_image hfree hparam hmem
  | @label env rank c type name x rest hx hname hmem =>
    change env.Renames at henv
    by_cases hmaps : Env.maps env x = true
    · obtain ⟨y, hy, -, hyname⟩ := henv x hmaps
      rw [hy, Core.freeNames, List.mem_singleton] at hmem
      subst hmem
      rcases hyname with rfl | ⟨k, rfl⟩
      · exact hname rfl
      · exact ht.labels k (by simp [Call.term, Core.names, Telescope.names])
    · rw [NormEnv.image_of_not_maps hmaps, Core.freeNames, List.mem_singleton] at hmem
      exact hname hmem.symm
  | reduct hoperator =>
    have hfree := ht.redexFree
    simp only [Call.term, Core.isRedexFree, Bool.and_eq_true, Bool.not_eq_true'] at hfree
    exact absurd rfl (hoperator.ne_lam hfree.1.1.2 henv hfree.2 _ _ _)

theorem Call.Renames.captureFree {call : Call} (h : call.Renames) : call.CaptureFree := by
  intro call' hcalls
  have hrenames : call'.Renames := by
    induction hcalls with
    | refl => exact h
    | tail _ hmakes ih => exact ih.makes hmakes
  exact hrenames.not_captures

/-! ### Fixed points -/

theorem Core.hasMember_of_isRecord {t : Core} (h : t.isRecord = false) (index : Nat) :
    t.hasMember index = false := by
  cases t with
  | record => cases h
  | _ => rfl

mutual

theorem Core.isNormal_of_isRedexFree : (t : Core) → t.isRedexFree = true → t.isNormal = true
  | .univ _, _ | .var _, _ | .const _, _ => rfl
  | .quant _ _ domain _ codomain, h => by
    simp only [Core.isRedexFree, Bool.and_eq_true] at h
    simp [Core.isNormal, domain.isNormal_of_isRedexFree h.1, codomain.isNormal_of_isRedexFree h.2]
  | .signature members, h => members.isNormal_of_isRedexFree h
  | .lam _ _ body, h => body.isNormal_of_isRedexFree h
  | .record members, h => Core.isNormalMembers_of_isRedexFreeMembers members h
  | .app _ type operator operand, h => by
    simp only [Core.isRedexFree, Bool.and_eq_true, Bool.not_eq_true'] at h
    obtain ⟨⟨⟨htype, hoperator⟩, hoperand⟩, hhead⟩ := h
    simp [Core.isNormal, type.isNormal_of_isRedexFree htype,
      operator.isNormal_of_isRedexFree hoperator, operand.isNormal_of_isRedexFree hoperand, hhead]
  | .proj _ type operator index, h => by
    simp only [Core.isRedexFree, Bool.and_eq_true, Bool.not_eq_true'] at h
    obtain ⟨⟨htype, hoperator⟩, hhead⟩ := h
    simp [Core.isNormal, type.isNormal_of_isRedexFree htype,
      operator.isNormal_of_isRedexFree hoperator, Core.hasMember_of_isRecord hhead index]

theorem Telescope.isNormal_of_isRedexFree : (types : Telescope) → types.isRedexFree = true →
    types.isNormal = true
  | .nil, _ => rfl
  | .cons _ type _ rest, h => by
    simp only [Telescope.isRedexFree, Bool.and_eq_true] at h
    simp [Telescope.isNormal, type.isNormal_of_isRedexFree h.1, rest.isNormal_of_isRedexFree h.2]

theorem Core.isNormalMembers_of_isRedexFreeMembers : (ts : List Core) →
    Core.isRedexFreeMembers ts = true → Core.isNormalMembers ts = true
  | [], _ => rfl
  | m :: ms, h => by
    simp only [Core.isRedexFreeMembers, Bool.and_eq_true] at h
    simp [Core.isNormalMembers, m.isNormal_of_isRedexFree h.1,
      Core.isNormalMembers_of_isRedexFreeMembers ms h.2]

end

/-- A normal form none of whose free names and labels is generated: normalizing it again, from any
counter, comes to an end and changes the names of binders only. -/
theorem Core.normalize_inNormalForm {n : Core} (hn : n.InNormalForm)
    (hfree : ∀ k, generatedName k ∉ n.freeNames)
    (hlabels : ∀ k, (.label, generatedName k) ∉ n.names) (c : Nat) :
    ∃ n' c' enough, (∀ fuel ≥ enough, (n.normalize fuel []).Returns c n' c') ∧
      n'.alphaEq n = true := by
  have hredexFree := hn.isRedexFree
  obtain ⟨n', c', hnormalizes⟩ := n.exists_normalizes [] .nil c hredexFree
  obtain ⟨enough, henough⟩ := hnormalizes.returns
  refine ⟨n', c', enough, fun fuel hfuel ↦ Core.returns_mono hfuel henough, ?_⟩
  have hcall : (Call.core [] n c).Renames :=
    ⟨.nil, hredexFree, fun x hx ↦ .inr fun k hk ↦ hfree k (hk ▸ hx), hlabels⟩
  have hreduces : Reduces (n.meaning .var) (n'.meaning .var) :=
    hnormalizes.reduces hcall.captureFree fun _ _ ↦ rfl
  rw [Core.meaning_var, Core.meaning_var] at hreduces
  have hirreducible := n.irreducible_nameless (n.isNormal_of_isRedexFree hredexFree) []
  exact (n'.alphaEq_iff n).mpr (hirreducible.eq_of_reduces hreduces)

/-- A normal form with generated binders, one inside another of the same name. -/
theorem Core.normalize_inNormalForm_nested :
    let n : Core := .lam (generatedName 0) none (.lam "x" none (.app 0 (.var "F")
      (.var (generatedName 0)) (.lam (generatedName 0) none (.var (generatedName 0)))))
    n.InNormalForm ∧ (∀ k, generatedName k ∉ n.freeNames) ∧
      (∀ k, (.label, generatedName k) ∉ n.names) ∧
      ∃ n' c' enough, (∀ fuel ≥ enough, (n.normalize fuel []).Returns 0 n' c') ∧
        n'.alphaEq n = true := by
  intro n
  have hn : n.InNormalForm := Core.isRedexFree_iff.mp rfl
  have hfree : ∀ k, generatedName k ∉ n.freeNames := by
    intro k hk
    have hname : generatedName k ∈ ["F"] := hk
    have hhead := head?_generatedName k
    rw [List.mem_singleton.mp hname] at hhead
    revert hhead
    decide
  have hlabels : ∀ k, (.label, generatedName k) ∉ n.names := by
    intro k
    simp [n, Core.names]
  exact ⟨hn, hfree, hlabels, Core.normalize_inNormalForm hn hfree hlabels 0⟩

end RankedTT
