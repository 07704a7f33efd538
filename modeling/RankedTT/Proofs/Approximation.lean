import RankedTT.Proofs.Evaluates
import RankedTT.Proofs.Names

/-!
When one value can stand for another. Data have to be the same. A function stands for another if,
applied to what stands for the argument, it converges to what stands for the result. As functions
take functions, the relation is approximated: `Value.Approx k` looks at no more than `k` calls, and
the values that approximate each other for all `k` cannot be told apart by evaluation.

A term simulates another, given terms that stand for the free names, if it converges to what stands
for the value of the other. Every construct keeps simulation, every term simulates itself, and
approximation for all `k` can be appended to approximation for one `k`.
-/

set_option autoImplicit false
set_option relaxedAutoImplicit false

namespace RankedTT

open Run

def Value.isFunction : Value → Bool
  | .closure .. | .host _ => true
  | _ => false

mutual

/-- The same data, with functions related by `F`. -/
inductive Value.SimilarWith (F : Value → Value → Prop) : Value → Value → Prop
  | absent : Value.SimilarWith F .absent .absent
  | int (n : Int) : Value.SimilarWith F (.int n) (.int n)
  | str (s : String) : Value.SimilarWith F (.str s) (.str s)
  | record {vs ws : List Value} (hmembers : Value.SimilarMembersWith F vs ws) :
      Value.SimilarWith F (.record vs) (.record ws)
  | function {f g : Value} (hf : f.isFunction = true) (h : F f g) : Value.SimilarWith F f g

inductive Value.SimilarMembersWith (F : Value → Value → Prop) : List Value → List Value → Prop
  | nil : Value.SimilarMembersWith F [] []
  | cons {v w : Value} {vs ws : List Value} (hhead : Value.SimilarWith F v w)
      (htail : Value.SimilarMembersWith F vs ws) :
      Value.SimilarMembersWith F (v :: vs) (w :: ws)

end

/-- `w` can stand for `v` in evaluations of at most `k` calls. The call of the function is counted,
so what it is applied to and what it returns are related for fewer calls. -/
def Value.Approx (k : Nat) (v w : Value) : Prop :=
  Value.SimilarWith
    (fun f g ↦ ∀ j, j < k → ∀ a b, Value.Approx j a b → ∀ n r, n ≤ j → f.Applies a (n + 1) r →
      g.ConvergesOn b fun r' ↦ Value.Approx (j - n) r r')
    v w
termination_by k

/-- The relation of functions at `k` calls. -/
def Value.FunctionApprox (k : Nat) (f g : Value) : Prop :=
  ∀ j, j < k → ∀ a b, Value.Approx j a b → ∀ n r, n ≤ j → f.Applies a (n + 1) r →
    g.ConvergesOn b fun r' ↦ Value.Approx (j - n) r r'

theorem Value.approx_iff {k : Nat} {v w : Value} :
    Value.Approx k v w ↔ Value.SimilarWith (Value.FunctionApprox k) v w := by
  rw [Value.Approx]
  rfl

namespace Value

mutual

theorem SimilarWith.mono {F G : Value → Value → Prop} (h : ∀ f g, F f g → G f g) {v w : Value} :
    SimilarWith F v w → SimilarWith G v w
  | .absent => .absent
  | .int n => .int n
  | .str s => .str s
  | .record hmembers => .record (hmembers.mono h)
  | .function hf hfg => .function hf (h _ _ hfg)

theorem SimilarMembersWith.mono {F G : Value → Value → Prop} (h : ∀ f g, F f g → G f g)
    {vs ws : List Value} : SimilarMembersWith F vs ws → SimilarMembersWith G vs ws
  | .nil => .nil
  | .cons hhead htail => .cons (hhead.mono h) (htail.mono h)

end

theorem Approx.mono {j k : Nat} {v w : Value} (h : Approx k v w) (hjk : j ≤ k) : Approx j v w :=
  approx_iff.mpr ((approx_iff.mp h).mono fun _ _ hfg i hi ↦ hfg i (Nat.lt_of_lt_of_le hi hjk))

theorem Applies.isFunction {f a r : Value} {n : Nat} (h : f.Applies a n r) :
    f.isFunction = true := by
  cases h <;> rfl

/-- Every application counts as a call. -/
theorem Applies.exists_succ {f a r : Value} {n : Nat} (h : f.Applies a n r) :
    ∃ m, n = m + 1 := by
  cases h with
  | closure _ => exact ⟨_, rfl⟩
  | host _ => exact ⟨0, rfl⟩

theorem Approx.functionApprox {k : Nat} {f g : Value} (h : Approx k f g)
    (hf : f.isFunction = true) : FunctionApprox k f g := by
  cases approx_iff.mp h with
  | function _ h => exact h
  | absent | int | str | record => simp [isFunction] at hf

theorem FunctionApprox.approx {k : Nat} {f g : Value} (h : FunctionApprox k f g)
    (hf : f.isFunction = true) : Approx k f g :=
  approx_iff.mpr (.function hf h)

theorem Approx.eq_int {k : Nat} {n : Int} {w : Value} (h : Approx k (.int n) w) : w = .int n := by
  cases approx_iff.mp h with
  | int => rfl
  | function hf _ => simp [isFunction] at hf

theorem Approx.eq_str {k : Nat} {s : String} {w : Value} (h : Approx k (.str s) w) :
    w = .str s := by
  cases approx_iff.mp h with
  | str => rfl
  | function hf _ => simp [isFunction] at hf

theorem Approx.exists_record {k : Nat} {vs : List Value} {w : Value} (h : Approx k (.record vs) w) :
    ∃ ws, w = .record ws ∧ SimilarMembersWith (FunctionApprox k) vs ws := by
  cases approx_iff.mp h with
  | record hmembers => exact ⟨_, rfl, hmembers⟩
  | function hf _ => simp [isFunction] at hf

theorem SimilarMembersWith.getElem? {k : Nat} {vs ws : List Value}
    (h : SimilarMembersWith (FunctionApprox k) vs ws) {index : Nat} {v : Value}
    (hv : vs[index]? = some v) : ∃ w, ws[index]? = some w ∧ Approx k v w := by
  induction index generalizing vs ws with
  | zero =>
    cases h with
    | nil => simp at hv
    | cons hhead _ =>
      obtain rfl : _ = v := by simpa using hv
      exact ⟨_, rfl, approx_iff.mpr hhead⟩
  | succ index ih =>
    cases h with
    | nil => simp at hv
    | cons _ htail => exact ih htail (by simpa using hv)

end Value

/-! ### Simulation -/

/-- In `ρ'`, the terms of `image` stand for the values that `ρ` has for the names `xs`. -/
def Carries (image : String → Core) (xs : List String) (k : Nat) (ρ ρ' : Env Value) : Prop :=
  ∀ x ∈ xs, ∀ v, Env.get? ρ x = some v → (image x).Converges ρ' (Value.Approx k v)

/-- Where `image` stands for the free names of `t`, the term `t'` converges to what stands for the
value of `t`. -/
def Core.Simulates (image : String → Core) (t t' : Core) : Prop :=
  ∀ k ρ ρ', Carries image t.freeNames k ρ ρ' → ∀ n v, n ≤ k → t.Evaluates ρ n v →
    t'.Converges ρ' (Value.Approx (k - n) v)

def Core.SimulatesMembers (image : String → Core) (ts ts' : List Core) : Prop :=
  ∀ k ρ ρ', Carries image (Core.freeNamesMembers ts) k ρ ρ' → ∀ n vs, n ≤ k →
    Core.EvaluatesMembers ρ ts n vs →
    Core.ConvergesMembers ρ' ts' (Value.SimilarMembersWith (Value.FunctionApprox (k - n)) vs)

theorem Carries.subset {image : String → Core} {xs ys : List String} {k : Nat} {ρ ρ' : Env Value}
    (h : Carries image xs k ρ ρ') (hys : ys ⊆ xs) : Carries image ys k ρ ρ' :=
  fun x hx ↦ h x (hys hx)

namespace Core

variable {image : String → Core}

theorem simulates_var (x : String) : Simulates image (.var x) (image x) := by
  intro k ρ ρ' hcarries n v _ heval
  cases heval with
  | var hx => exact hcarries x (by simp [Core.freeNames]) v hx

theorem simulates_univ (rank rank' : Nat) : Simulates image (.univ rank) (.univ rank') := by
  intro k ρ ρ' _ n v _ heval
  cases heval
  exact converges_univ (Value.approx_iff.mpr .absent)

theorem simulates_quant {polarity polarity' : Polarity} {rank rank' : Nat}
    {domain domain' codomain codomain' : Core} {name name' : String} :
    Simulates image (.quant polarity rank domain name codomain)
      (.quant polarity' rank' domain' name' codomain') := by
  intro k ρ ρ' _ n v _ heval
  cases heval
  exact converges_quant (Value.approx_iff.mpr .absent)

theorem simulates_signature {members members' : Telescope} :
    Simulates image (.signature members) (.signature members') := by
  intro k ρ ρ' _ n v _ heval
  cases heval
  exact converges_signature (Value.approx_iff.mpr .absent)

theorem simulates_const {value : Value} (h : ∀ k, Value.Approx k value value) :
    Simulates image (.const value) (.const value) := by
  intro k ρ ρ' _ n v _ heval
  cases heval
  exact converges_const (h k)

theorem simulates_record {members members' : List Core}
    (h : SimulatesMembers image members members') :
    Simulates image (.record members) (.record members') := by
  intro k ρ ρ' hcarries n v hn heval
  cases heval with
  | record hmembers =>
    refine converges_record ((h k ρ ρ' hcarries n _ hn hmembers).mono fun ws hws ↦ ?_)
    exact Value.approx_iff.mpr (.record hws)

theorem simulatesMembers_nil : SimulatesMembers image [] [] := by
  intro k ρ ρ' _ n vs _ heval
  cases heval
  exact convergesMembers_nil .nil

theorem simulatesMembers_cons {m m' : Core} {ms ms' : List Core} (hm : Simulates image m m')
    (hms : SimulatesMembers image ms ms') : SimulatesMembers image (m :: ms) (m' :: ms') := by
  intro k ρ ρ' hcarries n vs hn heval
  cases heval with
  | @cons _ _ _ n₁ n₂ value values hhead htail =>
    have hhead := hm k ρ ρ' (hcarries.subset (List.subset_append_left _ _)) n₁ _ (by omega) hhead
    have htail := hms k ρ ρ' (hcarries.subset (List.subset_append_right _ _)) n₂ _ (by omega) htail
    refine convergesMembers_cons hhead htail fun w ws hw hws ↦ ?_
    refine .cons (Value.approx_iff.mp (hw.mono (by omega))) (hws.mono fun f g hfg ↦ ?_)
    exact fun j hj ↦ hfg j (by omega)

theorem simulates_app {rank rank' : Nat} {type type' operator operator' operand operand' : Core}
    (hoperator : Simulates image operator operator') (hoperand : Simulates image operand operand') :
    Simulates image (.app rank type operator operand) (.app rank' type' operator' operand') := by
  intro k ρ ρ' hcarries n v hn heval
  cases heval with
  | @app _ _ _ _ _ n₁ n₂ n₃ function argument result hf ha hresult =>
    obtain ⟨m, rfl⟩ := hresult.exists_succ
    have hf := hoperator k ρ ρ' (hcarries.subset (by simp [Core.freeNames])) n₁ _ (by omega) hf
    have ha := hoperand k ρ ρ' (hcarries.subset (by simp [Core.freeNames])) n₂ _ (by omega) ha
    refine converges_app hf ha fun f a hf ha ↦ ?_
    have hfunction := hf.functionApprox hresult.isFunction
    -- what is left for the call after operator and operand
    have hcall := hfunction (k - n₁ - n₂ - 1) (by omega) _ a (ha.mono (by omega)) m _ (by omega)
      hresult
    exact hcall.mono fun r hr ↦ hr.mono (by omega)

theorem simulates_proj {rank rank' index : Nat} {type type' operator operator' : Core}
    (hoperator : Simulates image operator operator') :
    Simulates image (.proj rank type operator index) (.proj rank' type' operator' index) := by
  intro k ρ ρ' hcarries n v hn heval
  cases heval with
  | proj heval hvalue =>
    have hrecord := hoperator k ρ ρ' (hcarries.subset (by simp [Core.freeNames])) n _ hn heval
    refine converges_proj (hrecord.mono fun w hw ↦ ?_)
    obtain ⟨ws, rfl, hws⟩ := hw.exists_record
    obtain ⟨w, hget, hw⟩ := hws.getElem? hvalue
    exact ⟨ws, w, rfl, hget, hw⟩

/-- Under a binder. What stands for the other names must not change when the new name is bound. -/
theorem simulates_lam {param param' : String} {stamp stamp' : Stamp} {body body' : Core}
    {inner : String → Core} (hbody : Simulates inner body body')
    (hparam : inner param = .var param')
    (hinner : ∀ x ∈ body.freeNames, x ≠ param → inner x = image x)
    (hfresh : ∀ x ∈ body.freeNames, x ≠ param → ∀ k ρ v a,
      (image x).Converges ρ (Value.Approx k v) →
        (image x).Converges (Env.push ρ param' a) (Value.Approx k v)) :
    Simulates image (.lam param stamp body) (.lam param' stamp' body') := by
  intro k ρ ρ' hcarries n v hn heval
  cases heval
  refine converges_lam (Value.FunctionApprox.approx ?_ rfl)
  intro j hj a b hab m r hm hresult
  cases hresult with
  | closure hresult =>
    refine Value.convergesOn_closure (hbody j _ _ ?_ m r hm hresult)
    intro x hx v hv
    by_cases hname : x = param
    · subst hname
      rw [Env.get?_push_self] at hv
      injection hv with hv
      subst hv
      rw [hparam]
      exact converges_var (Env.get?_push_self _ _ _) hab
    · rw [Env.get?_push_of_ne _ _ hname] at hv
      rw [hinner x hx hname]
      refine hfresh x hx hname j ρ' v b ?_
      have hmem : x ∈ (Core.lam param stamp body).freeNames := by
        simpa [Core.freeNames, hname] using hx
      exact (hcarries x hmem v hv).mono fun w hw ↦ hw.mono (by omega)

end Core

/-! ### Host functions -/

namespace Value

/-- An operation answers integers and strings only, and from the same operands it answers the same.
-/
theorem approx_call {op : BinaryOp} {k : Nat} {lhs lhs' rhs rhs' r : Value}
    (hlhs : Approx k lhs lhs') (hrhs : Approx k rhs rhs') (h : op.call lhs rhs = .ok r) :
    op.call lhs' rhs' = .ok r ∧ Approx k r r := by
  obtain ⟨_, _, _, -, rfl, rfl, -, rfl⟩ | ⟨-, _, _, rfl, rfl, rfl⟩ :=
    BinaryOp.call_eq_ok_iff.mp h
  · obtain rfl := hlhs.eq_int
    obtain rfl := hrhs.eq_int
    exact ⟨h, approx_iff.mpr (.int _)⟩
  · obtain rfl := hlhs.eq_str
    obtain rfl := hrhs.eq_str
    exact ⟨h, approx_iff.mpr (.str _)⟩

/-- What a host function answers directly, from any journal. -/
theorem convergesOn_host {function : HostFn} {argument r : Value} {P : Value → Prop}
    (h : ∀ s, ∃ s', (function.call argument).Returns s r s') (hP : P r) :
    (Value.host function).ConvergesOn argument P := by
  intro s
  obtain ⟨s', hs'⟩ := h s
  exact ⟨0, r, s', returns_mapError_iff.mpr hs', hP⟩

/-- Partial applications to operands that stand for each other; the stamps do not matter. -/
theorem approx_applied {op : BinaryOp} {k : Nat} {lhs lhs' : Value} {stamp stamp' : Nat}
    (h : Approx k lhs lhs') :
    Approx k (.host (.applied op lhs stamp)) (.host (.applied op lhs' stamp')) := by
  refine FunctionApprox.approx ?_ rfl
  intro j hj a b hab n r hn happlies
  cases happlies with
  | host hcall =>
    obtain ⟨hcall, -⟩ := returns_ofExcept_iff.mp hcall
    obtain ⟨hcall', hr⟩ := approx_call (h.mono (Nat.le_of_lt hj)) hab hcall
    exact convergesOn_host (fun s ↦ ⟨s, returns_ofExcept_iff.mpr ⟨hcall', rfl⟩⟩) hr

/-- Host functions that hold no value. -/
theorem approx_host {function : HostFn} {k : Nat}
    (h : ∀ op lhs stamp, function ≠ .applied op lhs stamp) :
    Approx k (.host function) (.host function) := by
  cases function with
  | applied op lhs stamp => exact absurd rfl (h op lhs stamp)
  | binary op =>
    refine FunctionApprox.approx ?_ rfl
    intro j _ a b hab n r _ happlies
    cases happlies with
    | @host _ _ _ s₁ s₁' hcall =>
      simp only [HostFn.call, returns_bind_iff, returns_pure_iff] at hcall
      obtain ⟨stamp, _, -, rfl, -⟩ := hcall
      intro s
      refine ⟨0, .host (.applied op b s.nextStamp), (Journal.takeStamp s).2, ?_, ?_⟩
      · refine returns_mapError_iff.mpr ?_
        simp only [HostFn.call, returns_bind_iff, returns_pure_iff, returns_modifyGet_iff]
        exact ⟨_, _, rfl, rfl, rfl⟩
      · exact approx_applied hab
  | identity =>
    refine FunctionApprox.approx ?_ rfl
    intro j _ a b hab n r _ happlies
    cases happlies with
    | host hcall =>
      obtain ⟨rfl, -⟩ := returns_pure_iff.mp hcall
      exact convergesOn_host (fun s ↦ ⟨s, returns_pure_iff.mpr ⟨rfl, rfl⟩⟩) hab
  | failing =>
    refine FunctionApprox.approx ?_ rfl
    intro j _ a b _ n r _ happlies
    cases happlies with
    | host hcall => exact absurd hcall not_returns_fail
  | halving =>
    refine FunctionApprox.approx ?_ rfl
    intro j _ a b hab n r _ happlies
    cases happlies with
    | host hcall =>
      obtain ⟨hcall, -⟩ := returns_ofExcept_iff.mp hcall
      obtain ⟨m, rfl, -, rfl⟩ := halve_eq_ok_iff.mp hcall
      obtain rfl := hab.eq_int
      exact convergesOn_host (fun s ↦ ⟨s, returns_ofExcept_iff.mpr ⟨hcall, rfl⟩⟩)
        (approx_iff.mpr (.int _))

end Value

/-! ### Every value stands for itself -/

theorem Core.simulates_lam_self {param : String} {stamp : Stamp} {body : Core}
    (hbody : body.Simulates .var body) :
    (Core.lam param stamp body).Simulates .var (.lam param stamp body) := by
  refine Core.simulates_lam hbody rfl (fun _ _ _ ↦ rfl) ?_
  intro x _ hx k ρ v a h
  obtain ⟨n, w, heval, hw⟩ := h.exists_evaluates
  cases heval with
  | var hget => exact Core.converges_var ((Env.get?_push_of_ne _ _ hx).trans hget) hw

/-- A closure is the value of its lambda. -/
theorem Value.approx_closure_self {ρ : Env Value} {param : String} {stamp : Stamp} {body : Core}
    {k : Nat} (hbody : body.Simulates .var body)
    (hρ : ∀ x v, Env.get? ρ x = some v → Value.Approx k v v) :
    Value.Approx k (.closure ρ param stamp body) (.closure ρ param stamp body) := by
  have hlam : (Core.lam param stamp body).Converges ρ
      (Value.Approx k (.closure ρ param stamp body)) := by
    refine Core.simulates_lam_self hbody k ρ ρ (fun x _ v hv ↦ ?_) 0 _ (Nat.zero_le k) .lam
    exact Core.converges_var hv (hρ x v hv)
  obtain ⟨n, w, heval, hw⟩ := hlam.exists_evaluates
  cases heval
  exact hw

mutual

theorem Core.simulates_self : (t : Core) → t.Simulates .var t
  | .univ _ => Core.simulates_univ _ _
  | .quant .. => Core.simulates_quant
  | .signature _ => Core.simulates_signature
  | .lam _ _ body => Core.simulates_lam_self body.simulates_self
  | .record members => Core.simulates_record (Core.simulatesMembers_self members)
  | .app _ _ operator operand =>
    Core.simulates_app operator.simulates_self operand.simulates_self
  | .proj _ _ operator _ => Core.simulates_proj operator.simulates_self
  | .var x => Core.simulates_var x
  | .const value => Core.simulates_const fun k ↦ value.approx_self k

theorem Core.simulatesMembers_self : (ts : List Core) → Core.SimulatesMembers .var ts ts
  | [] => Core.simulatesMembers_nil
  | m :: ms => Core.simulatesMembers_cons m.simulates_self (Core.simulatesMembers_self ms)

theorem Value.approx_self : (v : Value) → (k : Nat) → Value.Approx k v v
  | .absent, _ => Value.approx_iff.mpr .absent
  | .int n, _ => Value.approx_iff.mpr (.int n)
  | .str s, _ => Value.approx_iff.mpr (.str s)
  | .record members, k => Value.approx_iff.mpr (.record (Value.similarMembers_self members k))
  | .closure ρ _ _ body, k =>
    Value.approx_closure_self body.simulates_self (Value.approx_env_self ρ k)
  | .host (.applied _ lhs _), k => Value.approx_applied (lhs.approx_self k)
  | .host (.binary _), _ | .host .identity, _ | .host .failing, _ | .host .halving, _ =>
    Value.approx_host (by simp)

theorem Value.similarMembers_self : (vs : List Value) → (k : Nat) →
    Value.SimilarMembersWith (Value.FunctionApprox k) vs vs
  | [], _ => .nil
  | v :: vs, k => .cons (Value.approx_iff.mp (v.approx_self k)) (Value.similarMembers_self vs k)

theorem Value.approx_env_self : (ρ : List (String × Value)) → (k : Nat) → (x : String) →
    (v : Value) → List.lookup x ρ = some v → Value.Approx k v v
  | [], _, _, _, h => by simp at h
  | (y, w) :: ρ, k, x, v, h => by
    rw [List.lookup_cons] at h
    split at h
    · injection h with h
      subst h
      exact w.approx_self k
    · exact Value.approx_env_self ρ k x v h

end

/-! ### Values that cannot be told apart -/

/-- `w` can stand for `v` in all evaluations. -/
def Value.Refines (v w : Value) : Prop := ∀ k, Value.Approx k v w

theorem Value.Refines.refl (v : Value) : v.Refines v := v.approx_self

/-- If all approximations of a value are met, they are met by one run. -/
theorem Core.converges_refines {ρ : Env Value} {t : Core} {v : Value}
    (h : ∀ k, t.Converges ρ (Value.Approx k v)) : t.Converges ρ v.Refines :=
  Settles.for_all (t.eval_growing ρ) h

/-- A function that refines one that can be applied can be applied too, to a refining result. -/
theorem Value.Refines.convergesOn {f g a r : Value} {n : Nat} (h : f.Refines g)
    (hr : f.Applies a n r) : g.ConvergesOn a r.Refines := by
  obtain ⟨m, rfl⟩ := hr.exists_succ
  refine Settles.for_all (g.apply_growing a) fun k ↦ ?_
  have hfunction := (h (m + k + 1)).functionApprox hr.isFunction
  have hcall := hfunction (m + k) (by omega) a a (a.approx_self _) m r (by omega) hr
  exact hcall.mono fun r' hr' ↦ hr'.mono (by omega)

theorem Value.Refines.exists_record {vs : List Value} {w : Value}
    (h : (Value.record vs).Refines w) :
    ∃ ws, w = .record ws ∧ ∀ k, Value.SimilarMembersWith (Value.FunctionApprox k) vs ws := by
  obtain ⟨ws, rfl, -⟩ := (h 0).exists_record
  refine ⟨ws, rfl, fun k ↦ ?_⟩
  obtain ⟨ws', hws', hmembers⟩ := (h k).exists_record
  injection hws' with hws'
  exact hws' ▸ hmembers

mutual

/-- Data and functions together: the functions are taken care of by `hF`. -/
theorem Value.SimilarWith.append {F G : Value → Value → Prop} {u v w : Value}
    (hF : ∀ f g h, F f g → g.Refines h → G f h) :
    Value.SimilarWith F u v → v.Refines w → Value.SimilarWith G u w
  | .absent, h => by
    cases Value.approx_iff.mp (h 0) with
    | absent => exact .absent
    | function hf _ => simp [Value.isFunction] at hf
  | .int n, h => by
    rw [(h 0).eq_int]
    exact .int n
  | .str s, h => by
    rw [(h 0).eq_str]
    exact .str s
  | .record hmembers, h => by
    obtain ⟨ws, rfl, hws⟩ := h.exists_record
    exact .record (hmembers.append hF hws)
  | .function hf hfg, h => .function hf (hF _ _ _ hfg h)

theorem Value.SimilarMembersWith.append {F G : Value → Value → Prop} {us vs ws : List Value}
    (hF : ∀ f g h, F f g → g.Refines h → G f h) :
    Value.SimilarMembersWith F us vs →
      (∀ k, Value.SimilarMembersWith (Value.FunctionApprox k) vs ws) →
      Value.SimilarMembersWith G us ws
  | .nil, h => by
    cases h 0
    exact .nil
  | .cons hhead htail, h => by
    cases h 0 with
    | cons _ _ =>
      refine .cons (hhead.append hF fun k ↦ ?_) (htail.append hF fun k ↦ ?_)
      · cases h k with
        | cons hhead _ => exact Value.approx_iff.mpr hhead
      · cases h k with
        | cons _ htail => exact htail

end

/-- What refines an approximation is one. -/
theorem Value.Approx.append {k : Nat} {u v w : Value} (huv : Value.Approx k u v)
    (hvw : v.Refines w) : Value.Approx k u w := by
  induction k using Nat.strongRecOn generalizing u v w with
  | ind k ih =>
    refine Value.approx_iff.mpr ((Value.approx_iff.mp huv).append (fun f g h hfg hgh ↦ ?_) hvw)
    intro j hj a b hab n r hn hresult
    obtain ⟨m, r₁, hr₁, hrr₁⟩ := (hfg j hj a b hab n r hn hresult).exists_applies
    exact (hgh.convergesOn hr₁).mono fun r₂ hr₂ ↦ ih (j - n) (by omega) hrr₁ hr₂

theorem Value.Refines.trans {u v w : Value} (huv : u.Refines v) (hvw : v.Refines w) :
    u.Refines w :=
  fun k ↦ (huv k).append hvw

/-! ### Evaluation again, and in larger environments -/

theorem Core.Simulates.converges {image : String → Core} {t t' : Core} {ρ ρ' : Env Value} {n : Nat}
    {v : Value} (h : t.Simulates image t')
    (hcarries : ∀ k, Carries image t.freeNames k ρ ρ') (heval : t.Evaluates ρ n v) :
    t'.Converges ρ' v.Refines := by
  refine Core.converges_refines fun k ↦ ?_
  exact (h (n + k) ρ ρ' (hcarries _) n v (by omega) heval).mono fun w hw ↦ hw.mono (by omega)

/-- A term with a value has a refining value from every journal, in every environment that agrees on
its free names. -/
theorem Core.Evaluates.converges {t : Core} {ρ ρ' : Env Value} {n : Nat} {v : Value}
    (h : t.Evaluates ρ n v) (hρ : ∀ x ∈ t.freeNames, Env.get? ρ' x = Env.get? ρ x) :
    t.Converges ρ' v.Refines := by
  refine t.simulates_self.converges (fun k x hx w hw ↦ ?_) h
  exact Core.converges_var ((hρ x hx).trans hw) (w.approx_self k)

theorem Core.Converges.push {t : Core} {ρ : Env Value} {k : Nat} {v : Value}
    (h : t.Converges ρ (Value.Approx k v)) {x : String} (hx : x ∉ t.freeNames) (a : Value) :
    t.Converges (Env.push ρ x a) (Value.Approx k v) := by
  obtain ⟨n, w, heval, hw⟩ := h.exists_evaluates
  have hpush : t.Converges (Env.push ρ x a) w.Refines := by
    refine heval.converges fun y hy ↦ Env.get?_push_of_ne _ _ ?_
    rintro rfl
    exact hx hy
  exact hpush.mono fun w' hw' ↦ hw.append hw'

end RankedTT
