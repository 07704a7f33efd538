import RankedTT.Eval.Basic
import RankedTT.Proofs.Alike

/-!
Evaluation in scope. A value is closed if every name that is free in the body of one of its closures
is the parameter or bound in the environment that the closure has captured, and so on for the values
there. A term whose free names are bound to closed values, and whose constants are closed, has a
closed value, and its evaluation does not meet an unbound name.
-/

set_option autoImplicit false
set_option relaxedAutoImplicit false

namespace RankedTT

open Run

namespace Run

variable {σ ε ε' α β : Type}

/-- Every answer has the property `P`, and every cause of failure the property `F`. -/
structure Ends (P : α → Prop) (F : ε → Prop) (action : Run σ ε α) : Prop where
  yields : action.Yields P
  fails : ∀ s cause, action.Fails s cause → F cause

namespace Ends

variable {P : α → Prop} {Q : β → Prop} {F : ε → Prop}

theorem pure {x : α} (h : P x) : Ends P F (Pure.pure x : Run σ ε α) :=
  ⟨.pure h, fun _ _ h ↦ absurd h not_fails_pure⟩

theorem bind {a : Run σ ε α} {f : α → Run σ ε β} (ha : Ends P F a)
    (hf : ∀ x, P x → Ends Q F (f x)) : Ends Q F (a >>= f) := by
  refine ⟨ha.yields.bind fun x hx ↦ (hf x hx).yields, fun s cause h ↦ ?_⟩
  rcases fails_bind_iff.mp h with h | ⟨x, s', hx, h⟩
  · exact ha.fails s cause h
  · exact (hf x (ha.yields s x s' hx)).fails s' cause h

theorem fail {cause : ε} (h : F cause) : Ends P F (Run.fail cause : Run σ ε α) :=
  ⟨.fail, fun _ _ h' ↦ fails_fail_iff.mp h' ▸ h⟩

theorem outOfFuel : Ends P F (Run.outOfFuel : Run σ ε α) :=
  ⟨fun _ _ _ h ↦ absurd h not_returns_outOfFuel, fun _ _ h ↦ absurd h not_fails_outOfFuel⟩

theorem modifyGet {f : σ → α × σ} (h : ∀ s, P (f s).1) :
    Ends P F (MonadState.modifyGet f : Run σ ε α) := by
  refine ⟨fun s x s' hx ↦ ?_, fun _ _ h ↦ absurd h not_fails_modifyGet⟩
  have hs := h s
  rw [returns_modifyGet_iff.mp hx] at hs
  exact hs

theorem ofOption {cause : ε} {o : Option α} (h : ∀ x, o = some x → P x) (hcause : F cause) :
    Ends P F (Run.ofOption cause o : Run σ ε α) :=
  ⟨.ofOption h, fun _ _ h ↦ (fails_ofOption_iff.mp h).2 ▸ hcause⟩

theorem mapError {f : ε → ε'} {F' : ε' → Prop} {a : Run σ ε α} (ha : a.Yields P)
    (hF : ∀ cause, F' (f cause)) : Ends P F' (Run.mapError f a) := by
  refine ⟨ha.mapError, fun _ _ h ↦ ?_⟩
  obtain ⟨cause, -, rfl⟩ := fails_mapError_iff.mp h
  exact hF cause

theorem mapM {f : α → Run σ ε β} {xs : List α} (hf : ∀ x ∈ xs, Ends Q F (f x)) :
    Ends (fun ys ↦ ∀ y ∈ ys, Q y) F (xs.mapM f) := by
  induction xs with
  | nil => exact .pure (by simp)
  | cons x xs ih =>
    obtain ⟨hx, hxs⟩ := List.forall_mem_cons.mp hf
    rw [List.mapM_cons]
    refine hx.bind fun y hy ↦ (ih hxs).bind fun ys hys ↦ ?_
    exact .pure (List.forall_mem_cons.mpr ⟨hy, hys⟩)

end Ends

end Run

/-! ### Closed values -/

inductive Value.Closed : Value → Prop
  | absent : Value.Closed .absent
  | int (n : Int) : Value.Closed (.int n)
  | str (s : String) : Value.Closed (.str s)
  | record {members : List Value} (h : ∀ v ∈ members, v.Closed) : Value.Closed (.record members)
  | closure {env : Env Value} {param : String} {stamp : Stamp} {body : Core}
      (scope : ∀ x ∈ body.freeNames, x = param ∨ env.maps x = true)
      (captured : ∀ x v, (x, v) ∈ env → v.Closed) (constants : ∀ v ∈ body.constants, v.Closed) :
      Value.Closed (.closure env param stamp body)
  | binary (op : BinaryOp) : Value.Closed (.host (.binary op))
  | applied (op : BinaryOp) {lhs : Value} (stamp : Nat) (h : lhs.Closed) :
      Value.Closed (.host (.applied op lhs stamp))
  | identity : Value.Closed (.host .identity)
  | failing : Value.Closed (.host .failing)
  | halving : Value.Closed (.host .halving)

/-- Every binding is closed. -/
def Env.Closed (env : Env Value) : Prop := ∀ x v, (x, v) ∈ env → v.Closed

/-- The free names are bound in the environment, and the constants are closed. -/
structure Core.ClosedIn (env : Env Value) (t : Core) : Prop where
  scope : ∀ x ∈ t.freeNames, env.maps x = true
  constants : ∀ v ∈ t.constants, v.Closed

theorem Env.Closed.push {env : Env Value} (henv : env.Closed) (x : String) {v : Value}
    (hv : v.Closed) : (env.push x v).Closed := by
  intro y w hw
  rcases List.mem_cons.mp hw with hw | hw
  · obtain ⟨-, rfl⟩ := Prod.mk.inj hw
    exact hv
  · exact henv y w hw

theorem Env.maps_push {α : Type} (env : Env α) (x : String) (v : α) (y : String) :
    (env.push x v).maps y = true ↔ y = x ∨ env.maps y = true := by
  unfold Env.maps
  by_cases hy : y = x
  · subst hy
    simp
  · rw [Env.get?_push_of_ne env v hy]
    simp [hy]

theorem Env.Closed.get? {env : Env Value} (henv : env.Closed) {x : String} {v : Value}
    (h : env.get? x = some v) : v.Closed := by
  obtain ⟨before, after, rfl, -⟩ := List.lookup_eq_some_iff.mp h
  exact henv x v (by simp)

namespace Core.ClosedIn

variable {env : Env Value} {t : Core}

theorem of_record {members : List Core} (h : (Core.record members).ClosedIn env) :
    ∀ m ∈ members, m.ClosedIn env := by
  obtain ⟨hscope, hconstants⟩ := h
  rw [Core.freeNames] at hscope
  rw [Core.constants] at hconstants
  induction members with
  | nil => simp
  | cons m ms ih =>
    obtain ⟨hm, hms⟩ := List.forall_mem_append.mp hscope
    obtain ⟨hm', hms'⟩ := List.forall_mem_append.mp hconstants
    exact List.forall_mem_cons.mpr ⟨⟨hm, hm'⟩, ih hms hms'⟩

theorem of_app {rank : Nat} {type operator operand : Core}
    (h : (Core.app rank type operator operand).ClosedIn env) :
    operator.ClosedIn env ∧ operand.ClosedIn env := by
  obtain ⟨hscope, hconstants⟩ := h
  obtain ⟨hscope, hoperand⟩ := List.forall_mem_append.mp hscope
  obtain ⟨hconstants, hoperand'⟩ := List.forall_mem_append.mp hconstants
  exact ⟨⟨(List.forall_mem_append.mp hscope).2, (List.forall_mem_append.mp hconstants).2⟩,
    hoperand, hoperand'⟩

theorem of_proj {rank index : Nat} {type operator : Core}
    (h : (Core.proj rank type operator index).ClosedIn env) : operator.ClosedIn env :=
  ⟨(List.forall_mem_append.mp h.scope).2, (List.forall_mem_append.mp h.constants).2⟩

theorem closure {param : String} {stamp : Stamp} {body : Core}
    (h : (Core.lam param stamp body).ClosedIn env) (henv : env.Closed) :
    (Value.closure env param stamp body).Closed := by
  refine .closure (fun x hx ↦ ?_) henv h.constants
  by_cases hparam : x = param
  · exact .inl hparam
  · exact .inr (h.scope x (List.mem_filter.mpr ⟨hx, bne_iff_ne.mpr hparam⟩))

end Core.ClosedIn

/-! ### Evaluation -/

/-- The evaluation has a closed value, and if it fails, then not because a name is unbound. -/
abbrev EndsClosed (action : Eval Value) : Prop :=
  Ends Value.Closed (fun cause ↦ ∀ name, cause ≠ .unbound name) action

theorem BinaryOp.call_closed {op : BinaryOp} {lhs rhs result : Value}
    (h : op.call lhs rhs = .ok result) : result.Closed := by
  obtain ⟨_, _, _, -, -, -, -, rfl⟩ | ⟨-, _, _, -, -, rfl⟩ := BinaryOp.call_eq_ok_iff.mp h
  · exact .int _
  · exact .str _

theorem HostFn.call_closed {f : HostFn} {argument : Value} (hf : (Value.host f).Closed)
    (hargument : argument.Closed) : (f.call argument).Yields Value.Closed := by
  cases hf with
  | binary op => exact .bind_any fun stamp ↦ .pure (.applied op stamp hargument)
  | applied op stamp hlhs => exact .ofExcept fun _ h ↦ BinaryOp.call_closed h
  | identity => exact .pure hargument
  | failing => exact .fail
  | halving =>
    refine .ofExcept fun result h ↦ ?_
    obtain ⟨_, -, -, rfl⟩ := Value.halve_eq_ok_iff.mp h
    exact .int _

section Step

variable {eval : Env Value → Core → Eval Value}
  (heval : ∀ {env t}, Env.Closed env → Core.ClosedIn env t → EndsClosed (eval env t))

include heval

theorem Value.applyWith_closed {function argument : Value} (hfunction : function.Closed)
    (hargument : argument.Closed) : EndsClosed (function.applyWith eval argument) := by
  cases hfunction with
  | closure hscope hcaptured hconstants =>
    refine heval (Env.Closed.push hcaptured _ hargument) ⟨fun x hx ↦ ?_, hconstants⟩
    exact (Env.maps_push _ _ _ _).mpr (hscope x hx)
  | binary op => exact .mapError (HostFn.call_closed (.binary op) hargument) fun _ _ ↦ nofun
  | applied op stamp h =>
    exact .mapError (HostFn.call_closed (.applied op stamp h) hargument) fun _ _ ↦ nofun
  | identity => exact .mapError (HostFn.call_closed .identity hargument) fun _ _ ↦ nofun
  | failing => exact .mapError (HostFn.call_closed .failing hargument) fun _ _ ↦ nofun
  | halving => exact .mapError (HostFn.call_closed .halving hargument) fun _ _ ↦ nofun
  | absent | int | str | record => exact .fail nofun

omit heval in
theorem Value.project_closed {v : Value} (hv : v.Closed) (index : Nat) :
    EndsClosed (v.project index) := by
  cases hv with
  | record h => exact .ofOption (fun _ hmember ↦ h _ (List.mem_of_getElem? hmember)) nofun
  | absent | int | str | closure | binary | applied | identity | failing | halving =>
    exact .fail nofun

theorem Core.evalWith_closed {env : Env Value} (henv : env.Closed) {t : Core}
    (ht : t.ClosedIn env) : EndsClosed (t.evalWith eval env) := by
  cases t with
  | univ | quant | signature => exact .pure .absent
  | lam param stamp body => exact .pure (ht.closure henv)
  | record members =>
    refine (Ends.mapM fun m hm ↦ heval henv (ht.of_record m hm)).bind fun vs hvs ↦ ?_
    exact .pure (.record hvs)
  | app rank type operator operand =>
    obtain ⟨hoperator, hoperand⟩ := ht.of_app
    refine (heval henv hoperator).bind fun function hfunction ↦ ?_
    refine (heval henv hoperand).bind fun argument hargument ↦ ?_
    exact Value.applyWith_closed heval hfunction hargument
  | proj rank type operator index =>
    exact (heval henv ht.of_proj).bind fun v hv ↦ Value.project_closed hv index
  | var name =>
    have hbound : env.maps name = true := ht.scope name (List.mem_singleton_self name)
    obtain ⟨v, hv⟩ := Option.isSome_iff_exists.mp hbound
    have hlookup : env.lookup name = .ok v := by
      unfold Env.lookup
      rw [hv]
    rw [Core.evalWith, hlookup]
    exact .pure (henv.get? hv)
  | const value => exact .pure (ht.constants value (List.mem_singleton_self value))

end Step

/-- By induction on the fuel, since the body of a closure is no part of the term. -/
theorem Core.eval_closed (fuel : Nat) {env : Env Value} (henv : env.Closed) {t : Core}
    (ht : t.ClosedIn env) : EndsClosed (t.eval fuel env) := by
  induction fuel generalizing env t with
  | zero => exact .outOfFuel
  | succ fuel ih =>
    rw [Core.eval_succ]
    refine (Core.evalWith_closed (fun henv ht ↦ ih henv ht) henv ht).bind fun v hv ↦ ?_
    exact .bind (P := fun _ ↦ True) (.modifyGet fun _ ↦ trivial) fun _ _ ↦ .pure hv

end RankedTT
