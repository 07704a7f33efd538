import RankedTT.Proofs.Approximation
import RankedTT.Proofs.CaptureFree

/-!
Normalization and evaluation agree. The normalizer reduces everywhere, by substitution; the
evaluator goes by value, with environments. Substituted terms stand for the names that they replace,
so a term is simulated by its substituted form, and by its normal form if no binder captures a name.
Captures are excluded by an invariant of the normalizer: names in scope stand for variables in
scope, and generated names that occur anywhere were generated before.
-/

set_option autoImplicit false
set_option relaxedAutoImplicit false

namespace RankedTT

open Run

/-! ### Substitution -/

theorem Core.simulates_subst_lam {σ : Substitution} (hσ : σ.AvoidsAnonymous) {param : String}
    {stamp stamp' : Stamp} {body : Core}
    (hbody : body.Simulates (Substitution.image (σ.enter param body).2)
      (body.subst (σ.enter param body).2)) :
    (Core.lam param stamp body).Simulates (Substitution.image σ)
      (.lam (σ.enter param body).1 stamp' (body.subst (σ.enter param body).2)) := by
  refine Core.simulates_lam hbody ?_ (fun x _ hx ↦ ?_) (fun x hmem hx k ρ v a hv ↦ ?_)
  · rw [Substitution.image_enter, if_pos rfl]
  · rw [Substitution.image_enter, if_neg hx]
  · refine hv.push (Substitution.enter_not_mem_image (fun hparam ↦ ?_) hmem hx) a
    exact hσ x (hparam ▸ hx)

mutual

/-- Substituted terms stand for the names that they replace. -/
theorem Core.simulates_subst :
    (t : Core) → (σ : Substitution) → σ.AvoidsAnonymous →
      t.Simulates (Substitution.image σ) (t.subst σ)
  | t, [], _ => by
    rw [Core.subst_nil]
    exact t.simulates_self
  | .univ _, _ :: _, _ => Core.simulates_univ _ _
  | .quant .., _ :: _, _ => Core.simulates_quant
  | .signature _, _ :: _, _ => Core.simulates_signature
  | .lam param _ body, entry :: σ, hσ =>
    Core.simulates_subst_lam hσ (body.simulates_subst _ (hσ.enter param body))
  | .record members, entry :: σ, hσ =>
    Core.simulates_record (Core.simulatesMembers_substMembers members _ hσ)
  | .app _ _ operator operand, entry :: σ, hσ =>
    Core.simulates_app (operator.simulates_subst _ hσ) (operand.simulates_subst _ hσ)
  | .proj _ _ operator _, entry :: σ, hσ => Core.simulates_proj (operator.simulates_subst _ hσ)
  | .var x, entry :: σ, _ => Core.simulates_var x
  | .const value, _ :: _, _ => Core.simulates_const value.approx_self

theorem Core.simulatesMembers_substMembers :
    (ts : List Core) → (σ : Substitution) → σ.AvoidsAnonymous →
      Core.SimulatesMembers (Substitution.image σ) ts (Core.substMembers σ ts)
  | [], _, _ => Core.simulatesMembers_nil
  | m :: ms, σ, hσ =>
    Core.simulatesMembers_cons (m.simulates_subst σ hσ) (Core.simulatesMembers_substMembers ms σ hσ)

end

/-! ### Normalization -/

/-- One reduction: where the closure of a lambda gives a result for the value of the operand, the
reduct converges to what refines the result. -/
theorem Core.converges_reduct {ρ : Env Value} {param : String} {body operand : Core} {m n : Nat}
    {argument result : Value} (hanonymous : anonymous ∉ operand.freeNames)
    (hoperand : operand.Evaluates ρ m argument)
    (hbody : body.Evaluates (Env.push ρ param argument) n result) :
    (body.subst (.single param operand)).Converges ρ result.Refines := by
  have hsubst := body.simulates_subst _ (.single hanonymous param)
  refine hsubst.converges (fun k x _ v hv ↦ ?_) hbody
  rw [Substitution.image_single]
  split
  · rename_i hx
    subst hx
    rw [Env.get?_push_self] at hv
    injection hv with hv
    subst hv
    exact (hoperand.converges fun _ _ ↦ rfl).mono fun w hw ↦ hw k
  · rename_i hx
    rw [Env.get?_push_of_ne _ _ hx] at hv
    exact Core.converges_var hv (v.approx_self k)

/-- An applied lambda, with the reduct normalized further. -/
theorem Core.simulates_beta {image : String → Core} {rank : Nat} {type operator operand : Core}
    {param : String} {stamp : Stamp} {body operand' result : Core}
    (hanonymous : anonymous ∉ operand'.freeNames)
    (hoperator : operator.Simulates image (.lam param stamp body))
    (hoperand : operand.Simulates image operand')
    (hresult : (body.subst (.single param operand')).Simulates .var result) :
    (Core.app rank type operator operand).Simulates image result := by
  intro k ρ ρ' hcarries n v hn heval
  cases heval with
  | @app _ _ _ _ _ n₁ n₂ n₃ function argument _ hf ha happlies =>
    obtain ⟨m, rfl⟩ := happlies.exists_succ
    have hf := hoperator k ρ ρ' (hcarries.subset (by simp [Core.freeNames])) n₁ _ (by omega) hf
    have ha := hoperand k ρ ρ' (hcarries.subset (by simp [Core.freeNames])) n₂ _ (by omega) ha
    obtain ⟨_, f, hf', hf⟩ := hf.exists_evaluates
    obtain ⟨_, a, ha', ha⟩ := ha.exists_evaluates
    -- the value of the normal operator is its own closure
    cases hf'
    have hcall := hf.functionApprox happlies.isFunction (k - n₁ - n₂ - 1) (by omega) _ a
      (ha.mono (by omega)) m _ (by omega) happlies
    obtain ⟨_, r₁, hr₁, hvr₁⟩ := hcall.exists_applies
    cases hr₁ with
    | closure hbody =>
      have hreduct := Core.converges_reduct hanonymous ha' hbody
      obtain ⟨_, r₂, hr₂, hr₁r₂⟩ := hreduct.exists_evaluates
      have hfinal : result.Converges ρ' r₂.Refines :=
        hresult.converges (fun k x _ w hw ↦ Core.converges_var hw (w.approx_self k)) hr₂
      refine hfinal.mono fun r₃ hr₂r₃ ↦ ?_
      exact (hvr₁.append (hr₁r₂.trans hr₂r₃)).mono (by omega)

theorem Core.EvaluatesMembers.getElem? {ρ : Env Value} {ts : List Core} {n : Nat}
    {vs : List Value} (h : Core.EvaluatesMembers ρ ts n vs) {index : Nat} {t : Core} {v : Value}
    (ht : ts[index]? = some t) (hv : vs[index]? = some v) : ∃ m, t.Evaluates ρ m v := by
  induction index generalizing ts vs n with
  | zero =>
    cases h with
    | nil => simp at ht
    | cons hhead _ =>
      obtain rfl : _ = t := by simpa using ht
      obtain rfl : _ = v := by simpa using hv
      exact ⟨_, hhead⟩
  | succ index ih =>
    cases h with
    | nil => simp at ht
    | cons _ htail => exact ih htail (by simpa using ht) (by simpa using hv)

/-- A projected record: the other members were evaluated as well, and nothing is left of them. -/
theorem Core.simulates_select {image : String → Core} {rank index : Nat} {type operator : Core}
    {members : List Core} {member : Core} (hoperator : operator.Simulates image (.record members))
    (hmember : members[index]? = some member) :
    (Core.proj rank type operator index).Simulates image member := by
  intro k ρ ρ' hcarries n v hn heval
  cases heval with
  | proj heval hvalue =>
    have hrecord := hoperator k ρ ρ' (hcarries.subset (by simp [Core.freeNames])) n _ hn heval
    obtain ⟨_, w, hw, hvw⟩ := hrecord.exists_evaluates
    cases hw with
    | record hmembers =>
      obtain ⟨ws, hws, hsimilar⟩ := hvw.exists_record
      injection hws with hws
      subst hws
      obtain ⟨w, hget, hvw⟩ := hsimilar.getElem? hvalue
      obtain ⟨m, hm⟩ := hmembers.getElem? hmember hget
      exact (hm.converges fun _ _ ↦ rfl).mono fun w' hw' ↦ hvw.append hw'

theorem Core.simulates_normal_lam {env : NormEnv} {c : Nat} {param : String}
    {stamp stamp' : Stamp} {body body' : Core} (henv : env.NamesBelow c)
    (hnames : body.NamesBelow c)
    (hbody : body.Simulates (NormEnv.image (NormEnv.bind env param c).1.2) body') :
    (Core.lam param stamp body).Simulates (NormEnv.image env)
      (.lam (NormEnv.bind env param c).1.1 stamp' body') := by
  refine Core.simulates_lam hbody ?_ (fun x _ hx ↦ ?_) (fun x hmem hx k ρ v a hv ↦ ?_)
  · rw [NormEnv.image_bind, if_pos rfl]
  · rw [NormEnv.image_bind, if_neg hx]
  · exact hv.push (NormEnv.bind_not_mem_image henv hnames hmem hx) a

mutual

/-- A term is simulated by its normal form. -/
theorem Core.Normalizes.simulates {env : NormEnv} {t n : Core} {c c' : Nat} :
    t.Normalizes env c n c' → env.NamesBelow c → t.NamesBelow c →
      t.Simulates (NormEnv.image env) n
  | .univ, _, _ => Core.simulates_univ _ _
  | .const, _, _ => Core.simulates_const fun k ↦ Value.approx_self _ k
  | .var, _, _ => Core.simulates_var _
  | .quant _ _, _, _ => Core.simulates_quant
  | .signature _, _, _ => Core.simulates_signature
  | .lam hbody, henv, ht => by
    have hnames := ht.subset (List.subset_cons_self _ _)
    refine Core.simulates_normal_lam henv hnames (hbody.simulates (henv.bind fun k hk ↦ ?_)
      (hnames.mono (NormEnv.bind_counter_ge _ _ _)))
    exact ht.below .binder k (by simp [Core.names, hk])
  | .record hmembers, henv, ht => Core.simulates_record (hmembers.simulates henv ht)
  | .beta hoperator hoperand hresult, henv, ht => by
    have hc := hoperator.counter_le
    have hbody := (hoperator.namesBelow henv ht.operator).subset (List.subset_cons_self _ _)
    have hargument := hoperand.namesBelow (henv.mono hc) (ht.operand.mono hc)
    refine Core.simulates_beta ?_ (hoperator.simulates henv ht.operator)
      (hoperand.simulates (henv.mono hc) (ht.operand.mono hc))
      (hresult.simulates (.nil _) ((hbody.mono hoperand.counter_le).reduct hargument))
    intro hmem
    exact hargument.ne_anonymous hmem rfl
  | .app hoperator _ hoperand _, henv, ht =>
    Core.simulates_app (hoperator.simulates henv ht.operator)
      (hoperand.simulates (henv.mono hoperator.counter_le)
        (ht.operand.mono hoperator.counter_le))
  | .select hoperator hmember, henv, ht =>
    Core.simulates_select (hoperator.simulates henv (ht.subset (by simp [Core.names]))) hmember
  | .proj hoperator _ _, henv, ht =>
    Core.simulates_proj (hoperator.simulates henv (ht.subset (by simp [Core.names])))

theorem Core.NormalizesMembers.simulates {env : NormEnv} {ts ns : List Core} {c c' : Nat} :
    Core.NormalizesMembers env ts c ns c' → env.NamesBelow c → (Core.record ts).NamesBelow c →
      Core.SimulatesMembers (NormEnv.image env) ts ns
  | .nil, _, _ => Core.simulatesMembers_nil
  | .cons hhead htail, henv, ht => by
    have hc := hhead.counter_le
    refine Core.simulatesMembers_cons (hhead.simulates henv (ht.subset ?_))
      (htail.simulates (henv.mono hc) ((ht.subset ?_).mono hc))
    · exact List.subset_append_left _ _
    · exact List.subset_append_right _ _

end

/-- A term that is evaluated to data has a normal form, if it has one, that is evaluated to the same
data, in the same environment and from every journal. -/
theorem Core.eval_normalize_eq {t n : Core} {ρ : Env Value} {v : Value} {c c' fuel fuel' : Nat}
    {s s' : Journal} (hanonymous : (.reference, anonymous) ∉ t.names)
    (hcounter : ∀ r k, (r, generatedName k) ∈ t.names → k < c)
    (hnormalize : (t.normalize fuel []).Returns c n c')
    (heval : (t.eval fuel' ρ).Returns s v s')
    (hv : (∃ i, v = .int i) ∨ ∃ text, v = .str text) :
    ∀ journal, ∃ fuel journal', (n.eval fuel ρ).Returns journal v journal' := by
  have hn := Core.normalizes_of_returns hnormalize
  obtain ⟨m, hm⟩ := Core.evaluates_of_returns heval
  have hconverges : n.Converges ρ v.Refines := by
    refine (hn.simulates (.nil c) ⟨hanonymous, hcounter⟩).converges (fun k x _ w hw ↦ ?_) hm
    exact Core.converges_var hw (w.approx_self k)
  intro journal
  obtain ⟨fuel, w, journal', hw, hvw⟩ := hconverges journal
  have hwv : w = v := by
    rcases hv with ⟨i, rfl⟩ | ⟨text, rfl⟩
    · exact (hvw 0).eq_int
    · exact (hvw 0).eq_str
  exact ⟨fuel, journal', hwv ▸ hw⟩

/-- A lambda that is reduced away: doubling a number by way of a parameter, and directly. -/
theorem Core.eval_normalize_eq_double :
    let plus (x : Core) : Core := .app 0 (.univ 0) (.app 0 (.univ 0) (.var "plus") x) x
    let ρ : Env Value := [("plus", .host (.binary .plus))]
    ∀ journal, ∃ fuel journal',
      ((plus (.const (.int 21))).eval fuel ρ).Returns journal (.int 42) journal' := by
  intro plus ρ
  let t : Core := .app 0 (.univ 0) (.lam "x" none (plus (.var "x"))) (.const (.int 21))
  have hnames : t.names =
      [(.binder, "x"), (.reference, "plus"), (.reference, "x"), (.reference, "x")] := rfl
  have hnormalize : (t.normalize 9 []).Returns 0 (plus (.const (.int 21))) 0 := rfl
  have heval : (t.eval 9 ρ).outcome .empty = .ok (.int 42) := rfl
  obtain ⟨s', heval⟩ := outcome_eq_ok_iff.mp heval
  refine Core.eval_normalize_eq (by rw [hnames]; decide) ?_ hnormalize heval (.inl ⟨42, rfl⟩)
  intro r k hk
  have hhead := head?_generatedName k
  simp only [hnames, List.mem_cons, Prod.mk.injEq, List.not_mem_nil, or_false] at hk
  rcases hk with ⟨-, hk⟩ | ⟨-, hk⟩ | ⟨-, hk⟩ | ⟨-, hk⟩ <;>
    exact absurd (hk ▸ hhead) (by decide)

end RankedTT
