import RankedTT.Proofs.Erasure
import RankedTT.Proofs.Evaluates
import RankedTT.Proofs.Hygiene

/-!
Data do not depend on how they are computed. Evaluating a term gives a value that can be read off a
reduct of the erasure of the term. A datum is read off a term by carrying out the operations of the
host; reduction does not change what is read, and what is read is determined. As reduction is
confluent, terms whose erasures have a common reduct have the same data as values.
-/

set_option autoImplicit false
set_option relaxedAutoImplicit false

namespace RankedTT

open Nameless Run

/-! ### Data -/

/-- The datum is what the operations of the host make of the term. -/
inductive Nameless.Computes : Nameless → Value → Prop
  | int (n : Int) : Computes (.const (.int n)) (.int n)
  | str (s : String) : Computes (.const (.str s)) (.str s)
  | operation {op : BinaryOp} {lhs rhs result : Value} {m n : Nat} {type type' u w : Nameless}
      (h : op.call lhs rhs = .ok result) (hlhs : Computes u lhs) (hrhs : Computes w rhs) :
      Computes (.app m type (.app n type' (.const (.host (.binary op))) u) w) result
  | half {v result : Value} {n : Nat} {type u : Nameless} (h : v.halve = .ok result)
      (hv : Computes u v) : Computes (.app n type (.const (.host .halving)) u) result

/-- An integer or a string. -/
def Value.IsDatum (v : Value) : Prop := (∃ n, v = .int n) ∨ ∃ s, v = .str s

theorem BinaryOp.isDatum_of_call {op : BinaryOp} {lhs rhs result : Value}
    (h : op.call lhs rhs = .ok result) : lhs.IsDatum ∧ rhs.IsDatum ∧ result.IsDatum := by
  obtain ⟨_, m, n, -, rfl, rfl, -, rfl⟩ | ⟨-, s, t, rfl, rfl, rfl⟩ := call_eq_ok_iff.mp h
  · exact ⟨.inl ⟨m, rfl⟩, .inl ⟨n, rfl⟩, .inl ⟨_, rfl⟩⟩
  · exact ⟨.inr ⟨s, rfl⟩, .inr ⟨t, rfl⟩, .inr ⟨_, rfl⟩⟩

theorem Value.isDatum_of_halve {v result : Value} (h : v.halve = .ok result) :
    v.IsDatum ∧ result.IsDatum := by
  obtain ⟨n, rfl, -, rfl⟩ := halve_eq_ok_iff.mp h
  exact ⟨.inl ⟨n, rfl⟩, .inl ⟨_, rfl⟩⟩

namespace Nameless.Computes

theorem isDatum {u : Nameless} {v : Value} (h : u.Computes v) : v.IsDatum := by
  cases h with
  | int n => exact .inl ⟨n, rfl⟩
  | str s => exact .inr ⟨s, rfl⟩
  | operation h => exact (BinaryOp.isDatum_of_call h).2.2
  | half h => exact (Value.isDatum_of_halve h).2

theorem deterministic {u : Nameless} {v w : Value} (hv : u.Computes v) (hw : u.Computes w) :
    v = w := by
  induction hv generalizing w with
  | int | str =>
    cases hw
    rfl
  | operation h _ _ ihlhs ihrhs =>
    cases hw with
    | operation h' hlhs hrhs =>
      rw [← ihlhs hlhs, ← ihrhs hrhs, h] at h'
      injection h'
  | half h _ ih =>
    cases hw with
    | half h' hv =>
      rw [← ih hv, h] at h'
      injection h'

/-- The terms that data are read off are stuck, so that only their parts can be reduced. -/
theorem par {u u' : Nameless} {v : Value} (h : u.Computes v) (hpar : Par u u') : u'.Computes v := by
  induction h generalizing u' with
  | int n =>
    cases hpar
    exact .int n
  | str s =>
    cases hpar
    exact .str s
  | operation h _ _ ihlhs ihrhs =>
    obtain ⟨_, _, _, rfl, -, hoperator, hrhs⟩ | ⟨_, hlam⟩ := hpar.app_cases
    · obtain ⟨_, _, _, rfl, -, hconst, hlhs⟩ | ⟨_, hlam⟩ := hoperator.app_cases
      · cases hconst
        exact .operation h (ihlhs hlhs) (ihrhs hrhs)
      · cases hlam
    · cases hlam
  | half h _ ih =>
    obtain ⟨_, _, _, rfl, -, hconst, hv⟩ | ⟨_, hlam⟩ := hpar.app_cases
    · cases hconst
      exact .half h (ih hv)
    · cases hlam

theorem reduces {u u' : Nameless} {v : Value} (h : u.Computes v) (hu : Reduces u u') :
    u'.Computes v := by
  induction hu with
  | refl => exact h
  | tail _ hstep ih => exact ih.par hstep

/-- Terms with a common ancestor compute the same datum. -/
theorem unique {t u u' : Nameless} {v w : Value} (hu : Reduces t u) (hu' : Reduces t u')
    (hv : u.Computes v) (hw : u'.Computes w) : v = w := by
  obtain ⟨x, hx, hx'⟩ := hu.confluent hu'
  exact (hv.reduces hx).deterministic (hw.reduces hx')

end Nameless.Computes

/-! ### Values -/

mutual

/-- The value can be read off the term. The value of a type can be read off an erased type, and off
the terms that have the property `A`. -/
inductive Value.Reads (A : Nameless → Prop) : Value → Nameless → Prop
  | type : Value.Reads A .absent (.univ 0)
  | absent {t : Nameless} (h : A t) : Value.Reads A .absent t
  | datum {v : Value} {u : Nameless} (h : u.Computes v) : Value.Reads A v u
  | operation (op : BinaryOp) : Value.Reads A (.host (.binary op)) (.const (.host (.binary op)))
  | applied (op : BinaryOp) {lhs : Value} (stamp n : Nat) (type : Nameless) {operand : Nameless}
      (h : Value.Reads A lhs operand) :
      Value.Reads A (.host (.applied op lhs stamp))
        (.app n type (.const (.host (.binary op))) operand)
  | identity : Value.Reads A (.host .identity) (.lam (.var (.bound 0)))
  | failing : Value.Reads A (.host .failing) (.const (.host .failing))
  | halving : Value.Reads A (.host .halving) (.const (.host .halving))
  | record {values : List Value} {members : Nameless} (h : Value.ReadsMembers A values members) :
      Value.Reads A (.record values) (.record members)
  | closure {ρ : Env Value} (param : String) (stamp : Stamp) (body : Core) {τ : Ref → Nameless}
      (hρ : ∀ x v, Env.get? ρ x = some v → Value.Reads A v (τ (.free x))) :
      Value.Reads A (.closure ρ param stamp body) (.lam (body.erasure (under τ param)))

inductive Value.ReadsMembers (A : Nameless → Prop) : List Value → Nameless → Prop
  | nil : Value.ReadsMembers A [] .nil
  | cons {v : Value} {vs : List Value} {head tail : Nameless} (hhead : Value.Reads A v head)
      (htail : Value.ReadsMembers A vs tail) : Value.ReadsMembers A (v :: vs) (.cons head tail)

end

section Reads

variable {A : Nameless → Prop}

/-- Every value can be read off what its name stands for. -/
def Env.Reads (A : Nameless → Prop) (ρ : Env Value) (τ : Ref → Nameless) : Prop :=
  ∀ x v, Env.get? ρ x = some v → v.Reads A (τ (.free x))

theorem Env.Reads.push {ρ : Env Value} {τ : Ref → Nameless} (h : Env.Reads A ρ τ) (param : String)
    {v : Value} {u : Nameless} (hv : v.Reads A u) :
    Env.Reads A (Env.push ρ param v) (rebind τ param u) := by
  intro x w hw
  by_cases hparam : x = param
  · subst hparam
    rw [Env.get?_push_self] at hw
    injection hw with hw
    rw [rebind_self, ← hw]
    exact hv
  · rw [Env.get?_push_of_ne _ _ hparam] at hw
    rw [rebind_of_ne _ _ _ hparam]
    exact h x w hw

theorem Value.Reads.computes {v : Value} {u : Nameless} (h : v.Reads A u) (hv : v.IsDatum) :
    u.Computes v := by
  obtain ⟨n, rfl⟩ | ⟨s, rfl⟩ := hv
  · cases h with
    | datum h => exact h
  · cases h with
    | datum h => exact h

theorem Value.ReadsMembers.nth {values : List Value} {members : Nameless}
    (h : Value.ReadsMembers A values members) {i : Nat} {v : Value} (hv : values[i]? = some v) :
    ∃ m, members.nth i = some m ∧ v.Reads A m := by
  induction i generalizing values members with
  | zero =>
    cases h with
    | nil => simp at hv
    | cons hhead _ =>
      obtain rfl : _ = v := by simpa using hv
      exact ⟨_, rfl, hhead⟩
  | succ i ih =>
    cases h with
    | nil => simp at hv
    | cons _ htail => exact ih htail (by simpa using hv)

mutual

/-- A constant is read off what it is unfolded to. -/
theorem Value.reads_erasure : (v : Value) → v.Reads A v.erasure
  | .absent => .type
  | .int n => .datum (.int n)
  | .str s => .datum (.str s)
  | .record members => .record (Value.readsMembers_erasure members)
  | .closure ρ param stamp body => .closure param stamp body (Value.reads_erasureBindings ρ)
  | .host (.binary op) => .operation op
  | .host (.applied op lhs stamp) => .applied op stamp 0 _ lhs.reads_erasure
  | .host .identity => .identity
  | .host .failing => .failing
  | .host .halving => .halving

theorem Value.readsMembers_erasure : (vs : List Value) →
    Value.ReadsMembers A vs (Value.erasureMembers vs)
  | [] => .nil
  | v :: vs => .cons v.reads_erasure (Value.readsMembers_erasure vs)

theorem Value.reads_erasureBindings : (ρ : List (String × Value)) → (x : String) → (v : Value) →
    List.lookup x ρ = some v → v.Reads A (Value.erasureBindings ρ (.free x))
  | [], _, _, h => by simp at h
  | (y, w) :: ρ, x, v, h => by
    rw [List.lookup_cons] at h
    by_cases hx : x = y
    · subst hx
      rw [beq_self_eq_true] at h
      injection h with h
      rw [Value.erasureBindings, rebind_self, ← h]
      exact w.reads_erasure
    · rw [beq_eq_false_iff_ne.mpr hx] at h
      rw [Value.erasureBindings, rebind_of_ne _ _ _ hx]
      exact Value.reads_erasureBindings ρ x v h

end

/-! ### Evaluation -/

theorem Core.reduces_erasure_call (τ : Ref → Nameless) (param : String) (body : Core)
    (u : Nameless) :
    Reduces (call (.lam (body.erasure (under τ param))) u) (body.erasure (rebind τ param u)) := by
  rw [← Core.inst_erasure]
  exact .single (.beta 0 _ (.refl _) (.refl u))

mutual

/-- The value of a term is read off a reduct of its erasure. -/
theorem Core.Evaluates.reads {τ : Ref → Nameless} {ρ : Env Value} {t : Core} {n : Nat} {v : Value} :
    t.Evaluates ρ n v → Env.Reads A ρ τ → ∃ u, Reduces (t.erasure τ) u ∧ v.Reads A u
  | .univ, _ | .quant, _ | .signature, _ => ⟨_, .refl, .type⟩
  | .lam, hρ => ⟨_, .refl, .closure _ _ _ hρ⟩
  | .record hmembers, hρ => by
    obtain ⟨us, hus, hreads⟩ := hmembers.reads hρ
    exact ⟨_, hus.record, .record hreads⟩
  | .app hoperator hoperand hresult, hρ => by
    obtain ⟨u, hu, hf⟩ := hoperator.reads hρ
    obtain ⟨w, hw, ha⟩ := hoperand.reads hρ
    obtain ⟨s, hs, hr⟩ := hresult.reads hf ha
    exact ⟨s, (Reduces.app 0 .refl hu hw).trans hs, hr⟩
  | .proj hoperator hvalue, hρ => by
    obtain ⟨u, hu, hrecord⟩ := hoperator.reads hρ
    cases hrecord with
    | record hmembers =>
      obtain ⟨m, hm, hv⟩ := hmembers.nth hvalue
      exact ⟨m, (Reduces.proj 0 _ .refl hu).tail (.select 0 _ (.refl _) hm), hv⟩
    | datum h => obtain ⟨_, h⟩ | ⟨_, h⟩ := h.isDatum <;> cases h
  | .var hvalue, hρ => ⟨_, .refl, hρ _ _ hvalue⟩
  | .const, _ => ⟨_, .refl, Value.reads_erasure _⟩

theorem Core.EvaluatesMembers.reads {τ : Ref → Nameless} {ρ : Env Value} {ts : List Core} {n : Nat}
    {vs : List Value} : Core.EvaluatesMembers ρ ts n vs → Env.Reads A ρ τ →
      ∃ us, Reduces (Core.erasureMembers τ ts) us ∧ Value.ReadsMembers A vs us
  | .nil, _ => ⟨_, .refl, .nil⟩
  | .cons hhead htail, hρ => by
    obtain ⟨u, hu, hv⟩ := hhead.reads hρ
    obtain ⟨us, hus, hvs⟩ := htail.reads hρ
    exact ⟨_, hu.cons hus, .cons hv hvs⟩

theorem Value.Applies.reads {f a r : Value} {n : Nat} {u w : Nameless} :
    f.Applies a n r → f.Reads A u → a.Reads A w → ∃ s, Reduces (call u w) s ∧ r.Reads A s
  | @Value.Applies.closure _ param _ body _ _ _ hbody, hf, ha => by
    cases hf with
    | @closure _ _ _ _ τ hρ =>
      obtain ⟨s, hs, hr⟩ := hbody.reads (Env.Reads.push hρ param ha)
      exact ⟨s, (Core.reduces_erasure_call τ param body w).trans hs, hr⟩
    | datum h => obtain ⟨_, h⟩ | ⟨_, h⟩ := h.isDatum <;> cases h
  | .host hcall, hf, ha => by
    cases hf with
    | operation op =>
      simp only [HostFn.call, returns_bind_iff, returns_pure_iff] at hcall
      obtain ⟨stamp, _, -, rfl, -⟩ := hcall
      exact ⟨_, .refl, .applied op stamp 0 _ ha⟩
    | applied op stamp m type hlhs =>
      simp only [HostFn.call, returns_ofExcept_iff] at hcall
      obtain ⟨hl, hr, -⟩ := BinaryOp.isDatum_of_call hcall.1
      exact ⟨_, .refl, .datum (.operation hcall.1 (hlhs.computes hl) (ha.computes hr))⟩
    | identity =>
      obtain ⟨rfl, -⟩ := returns_pure_iff.mp hcall
      exact ⟨w, .single (.beta 0 _ (.refl _) (.refl w)), ha⟩
    | failing => exact absurd hcall not_returns_fail
    | halving =>
      simp only [HostFn.call, returns_ofExcept_iff] at hcall
      exact ⟨_, .refl, .datum (.half hcall.1 (ha.computes (Value.isDatum_of_halve hcall.1).1))⟩
    | datum h => obtain ⟨_, h⟩ | ⟨_, h⟩ := h.isDatum <;> cases h

end

end Reads

/-! ### Terms and their normal forms -/

/-- A term applied to integers, with any types on the applications. -/
inductive Core.Applied (t : Core) : List Int → Core → Prop
  | none : Core.Applied t [] t
  | app {args : List Int} {function : Core} (rank : Nat) (type : Core) (n : Int)
      (h : Core.Applied t args function) :
      Core.Applied t (args ++ [n]) (.app rank type function (.const (.int n)))

/-- An erased term applied to integers. -/
def Nameless.callAll (t : Nameless) (args : List Int) : Nameless :=
  args.foldl (fun function n ↦ call function (.const (.int n))) t

theorem Core.Applied.erasure_eq {t u : Core} {args : List Int} (h : t.Applied args u)
    (τ : Ref → Nameless) : u.erasure τ = (t.erasure τ).callAll args := by
  induction h with
  | none => rfl
  | app rank type n _ ih =>
    rw [Nameless.callAll, List.foldl_concat, Core.erasure, ih]
    rfl

theorem Nameless.Reduces.callAll {t u : Nameless} (h : Reduces t u) (args : List Int) :
    Reduces (t.callAll args) (u.callAll args) := by
  induction args generalizing t u with
  | nil => exact h
  | cons n args ih => exact ih (Reduces.app 0 .refl h .refl)

section NormalForms

variable {κ : ValueKey → Nameless} (hκ : ∀ key υ, (κ key).subst υ = κ key) {fuel : Nat}
  {env : NormEnv} {t n : Core} (hconstants : ∀ v ∈ t.constants, κ v.key = v.erasure)
  (hn : t.normalForm fuel env = .ok n) (hfree : (Call.core env t 0).CaptureFree)

include hκ hconstants hn hfree

/-- Where names stand for their values, the erasure of a term reduces to that of its normal form. -/
theorem Core.reduces_erasure_normalForm :
    Reduces (t.erasure fun v ↦ (named (NormEnv.image env) v).erase κ)
      ((n.nameless []).erase κ) := by
  rw [← t.erase_meaning hκ _ hconstants]
  exact (Core.reduces_normalForm hn hfree).erase hκ

/-- The datum that a term applied to integers evaluates to is computed by a reduct of its normal
form applied to them. The names that occur in the term have their values as constants there; a
closure captures all names, but what the others stand for does not matter. -/
theorem Core.computes_of_normalForm {ρ : Env Value}
    (hρ : ∀ x ∈ t.freeNames, ∀ v, Env.get? ρ x = some v →
      v = .absent ∨ NormEnv.image env x = .const v ∧ κ v.key = v.erasure)
    {args : List Int} {u : Core} (hu : t.Applied args u) {m : Nat} {v : Value}
    (heval : u.Evaluates ρ m v) (hv : v.IsDatum) :
    ∃ r, Reduces (((n.nameless []).erase κ).callAll args) r ∧ r.Computes v := by
  classical
  let image : Ref → Nameless := fun v ↦ (named (NormEnv.image env) v).erase κ
  let τ : Ref → Nameless := fun v ↦
    if v ∈ t.freeNames.map Ref.free then image v else Value.erasureBindings ρ v
  have hmem (x : String) : .free x ∈ t.freeNames.map Ref.free ↔ x ∈ t.freeNames := by simp
  have hτ : t.erasure τ = t.erasure image :=
    t.erasure_congr fun x hx ↦ if_pos ((hmem x).mpr hx)
  have hreads : Env.Reads (fun _ ↦ True) ρ τ := by
    intro x w hw
    by_cases hx : x ∈ t.freeNames
    · rw [show τ (.free x) = image (.free x) from if_pos ((hmem x).mpr hx)]
      rcases hρ x hx w hw with rfl | ⟨himage, hunfolds⟩
      · exact .absent trivial
      · change w.Reads _ (((NormEnv.image env x).nameless []).erase κ)
        rw [himage]
        change w.Reads _ (κ w.key)
        rw [hunfolds]
        exact w.reads_erasure
    · rw [show τ (.free x) = Value.erasureBindings ρ (.free x) from
        if_neg fun h ↦ hx ((hmem x).mp h)]
      exact Value.reads_erasureBindings ρ x w hw
  obtain ⟨s, hs, hr⟩ := heval.reads hreads
  rw [hu.erasure_eq, hτ] at hs
  have hnormal := (Core.reduces_erasure_normalForm hκ hconstants hn hfree).callAll args
  obtain ⟨r, hsr, hr'⟩ := hs.confluent hnormal
  exact ⟨r, hr', (hr.computes hv).reduces hsr⟩

end NormalForms

/-! ### Values that are told apart -/

/-- The equality of values tells apart all values with the property. -/
def Value.ToldApart (S : Value → Prop) : Prop := ∀ v w, S v → S w → (v == w) = true → v = w

/-- Then a constant determines what it is unfolded to. -/
theorem Value.ToldApart.exists_unfolding {S : Value → Prop} (hS : Value.ToldApart S) :
    ∃ κ : ValueKey → Nameless, (∀ key υ, (κ key).subst υ = κ key) ∧
      ∀ v, S v → κ v.key = v.erasure := by
  classical
  refine ⟨fun key ↦ if h : ∃ v, S v ∧ v.key = key then h.choose.erasure else .univ 0,
    fun key υ ↦ ?_, fun v hv ↦ ?_⟩
  · dsimp only
    split
    · exact Value.erasure_closed _ υ
    · rfl
  · have hex : ∃ w, S w ∧ w.key = v.key := ⟨v, hv, rfl⟩
    dsimp only
    rw [dif_pos hex, hS _ v hex.choose_spec.1 hv (Value.beq_iff.mpr hex.choose_spec.2)]

end RankedTT
