import RankedTT.Eval.Basic
import RankedTT.Proofs.Alike

/-!
The content of terms and values: what is left of them without the identities of function bodies and
of partially applied operations. Evaluation does not look at identities, so terms of the same
content evaluate to values of the same content.
-/

set_option autoImplicit false
set_option relaxedAutoImplicit false

namespace RankedTT

mutual

/-- A term without the identities of functions, those in its constants included. -/
def Core.content : Core → Core
  | .univ rank => .univ rank
  | .quant polarity rank domain name codomain =>
    .quant polarity rank domain.content name codomain.content
  | .signature members => .signature members.content
  | .lam param _ body => .lam param none body.content
  | .record members => .record (Core.contentMembers members)
  | .app rank type operator operand => .app rank type.content operator.content operand.content
  | .proj rank type operator index => .proj rank type.content operator.content index
  | .var name => .var name
  | .const value => .const value.content

def Telescope.content : Telescope → Telescope
  | .nil => .nil
  | .cons rank type name rest => .cons rank type.content name rest.content

def Core.contentMembers : List Core → List Core
  | [] => []
  | m :: ms => m.content :: Core.contentMembers ms

def Value.content : Value → Value
  | .absent => .absent
  | .int n => .int n
  | .str s => .str s
  | .record members => .record (Value.contentMembers members)
  | .closure env param _ body => .closure (Value.contentBindings env) param none body.content
  | .host function => .host function.content

def Value.contentMembers : List Value → List Value
  | [] => []
  | v :: vs => v.content :: Value.contentMembers vs

def Value.contentBindings : List (String × Value) → List (String × Value)
  | [] => []
  | (x, v) :: env => (x, v.content) :: Value.contentBindings env

def HostFn.content : HostFn → HostFn
  | .binary op => .binary op
  | .applied op lhs _ => .applied op lhs.content 0
  | .identity => .identity
  | .failing => .failing
  | .halving => .halving

end

/-- The content of a classified value, that of its type included. -/
def Classified.content (result : Classified Value) : Classified Value :=
  ⟨result.rank, result.type.content, result.term.content⟩

section Alike

variable {S : Value → Prop}

mutual

theorem Core.Alike.content_eq {t t' : Core} : t.Alike S t' → t.content = t'.content
  | .univ _ | .var _ | .const _ => rfl
  | .quant _ _ _ hdomain hcodomain => by
    simp only [Core.content, hdomain.content_eq, hcodomain.content_eq]
  | .signature htypes => by simp only [Core.content, htypes.content_eq]
  | .lam _ _ _ hbody => by simp only [Core.content, hbody.content_eq]
  | .record hmembers => by simp only [Core.content, Core.contentMembers_eq_of_alike hmembers]
  | .app _ htype hoperator hoperand => by
    simp only [Core.content, htype.content_eq, hoperator.content_eq, hoperand.content_eq]
  | .proj _ _ htype hoperator => by
    simp only [Core.content, htype.content_eq, hoperator.content_eq]

theorem Telescope.Alike.content_eq {t t' : Telescope} : t.Alike S t' → t.content = t'.content
  | .nil => rfl
  | .cons _ _ htype hrest => by simp only [Telescope.content, htype.content_eq, hrest.content_eq]

theorem Core.contentMembers_eq_of_alike {ts ts' : List Core} :
    List.Forall₂ (Core.Alike S) ts ts' → Core.contentMembers ts = Core.contentMembers ts'
  | .nil => rfl
  | .cons hhead htail => by
    simp only [Core.contentMembers, hhead.content_eq, Core.contentMembers_eq_of_alike htail]

end

end Alike

/-! ### Evaluation -/

theorem Core.contentMembers_eq_map (ts : List Core) :
    Core.contentMembers ts = ts.map Core.content := by
  induction ts with
  | nil => rfl
  | cons t ts ih => rw [Core.contentMembers, List.map_cons, ih]

theorem Value.contentMembers_eq_map (vs : List Value) :
    Value.contentMembers vs = vs.map Value.content := by
  induction vs with
  | nil => rfl
  | cons v vs ih => rw [Value.contentMembers, List.map_cons, ih]

theorem Value.contentBindings_eq_map (env : Env Value) :
    Value.contentBindings env = env.mapBindings fun _ v ↦ v.content := by
  unfold Env.mapBindings
  induction env with
  | nil => rfl
  | cons entry env ih => rw [Value.contentBindings, List.map_cons, ih]

/-- The same names, for values of the same content. -/
def Env.SameContent (env env' : Env Value) : Prop :=
  Value.contentBindings env = Value.contentBindings env'

theorem Env.SameContent.push {env env' : Env Value} (h : env.SameContent env') (x : String)
    {v w : Value} (hv : v.content = w.content) : (env.push x v).SameContent (env'.push x w) := by
  change (x, v.content) :: _ = (x, w.content) :: _
  rw [hv, h]

theorem Env.SameContent.lookup {env env' : Env Value} (h : env.SameContent env') {x : String}
    {v : Value} (hv : env.lookup x = .ok v) :
    ∃ w, env'.lookup x = .ok w ∧ v.content = w.content := by
  have hget : (env.get? x).map Value.content = (env'.get? x).map Value.content := by
    have hmaps (env : Env Value) :
        (env.get? x).map Value.content = Env.get? (Value.contentBindings env) x := by
      rw [Value.contentBindings_eq_map, Env.get?_mapBindings]
    rw [hmaps, hmaps, h]
  unfold Env.lookup at hv ⊢
  cases henv : env.get? x with
  | none => simp [henv] at hv
  | some u =>
    rw [henv] at hv hget
    injection hv with hv
    obtain ⟨w, hw, hcontent⟩ := Option.map_eq_some_iff.mp hget.symm
    rw [hw]
    exact ⟨w, rfl, by rw [← hv, hcontent]⟩

open Run

/-- Two evaluations, whose journals are not compared. -/
def anyJournal : Simulation Journal Journal := ⟨fun _ _ ↦ True, fun _ ↦ True⟩

theorem anyJournal_total {α : Type} {R : α → α → Prop} :
    ∀ s, ¬ anyJournal.settled s → ∀ x, ∃ y, R x y :=
  fun _ h ↦ absurd trivial h

/-- The second evaluation has a value of the same content. -/
def FollowsContent (a b : Eval Value) : Prop :=
  Follows anyJournal (fun _ ↦ True) (fun v w ↦ v.content = w.content) a b

theorem Value.eq_int_of_content {n : Int} {v : Value} (h : (Value.int n).content = v.content) :
    v = .int n := by
  cases v <;> simp_all [Value.content]

theorem Value.eq_str_of_content {s : String} {v : Value} (h : (Value.str s).content = v.content) :
    v = .str s := by
  cases v <;> simp_all [Value.content]

theorem BinaryOp.call_sameContent {op : BinaryOp} {v v' w w' result : Value}
    (hv : v.content = v'.content) (hw : w.content = w'.content) (h : op.call v w = .ok result) :
    op.call v' w' = .ok result := by
  obtain ⟨_, _, _, -, rfl, rfl, -, -⟩ | ⟨-, _, _, rfl, rfl, -⟩ := call_eq_ok_iff.mp h
  · rwa [Value.eq_int_of_content hv, Value.eq_int_of_content hw]
  · rwa [Value.eq_str_of_content hv, Value.eq_str_of_content hw]

theorem Value.halve_sameContent {v v' result : Value} (hv : v.content = v'.content)
    (h : v.halve = .ok result) : v'.halve = .ok result := by
  obtain ⟨_, rfl, -, -⟩ := halve_eq_ok_iff.mp h
  rwa [eq_int_of_content hv]

theorem HostFn.call_follows {f f' : HostFn} {v v' : Value} (hf : f.content = f'.content)
    (hv : v.content = v'.content) :
    Follows anyJournal (fun _ ↦ True) (fun v w ↦ v.content = w.content) (f.call v)
      (f'.call v') := by
  cases f with
  | binary op =>
    cases f' <;> simp only [HostFn.content, HostFn.binary.injEq, reduceCtorEq] at hf
    subst hf
    refine .bind (R := fun _ _ ↦ True) anyJournal_total
      (.modifyGet (fun _ _ ↦ trivial) fun _ _ _ ↦ ⟨trivial, trivial⟩) fun m n _ ↦ .pure ?_
    simp only [Value.content, HostFn.content, hv]
  | applied op lhs stamp =>
    cases f' <;> simp only [HostFn.content, HostFn.applied.injEq, reduceCtorEq] at hf
    obtain ⟨rfl, hlhs, -⟩ := hf
    exact .ofExcept (fun _ ↦ trivial) fun result h ↦
      ⟨result, BinaryOp.call_sameContent hlhs hv h, rfl⟩
  | identity =>
    cases f' <;> simp only [HostFn.content, reduceCtorEq] at hf
    exact .pure hv
  | failing => exact .fail trivial
  | halving =>
    cases f' <;> simp only [HostFn.content, reduceCtorEq] at hf
    exact .ofExcept (fun _ ↦ trivial) fun result h ↦ ⟨result, Value.halve_sameContent hv h, rfl⟩

theorem Value.applyWith_follows {eval : Env Value → Core → Eval Value}
    (heval : ∀ {env env' t t'}, Env.SameContent env env' → Core.content t = Core.content t' →
      FollowsContent (eval env t) (eval env' t'))
    {f f' v v' : Value} (hf : f.content = f'.content) (hv : v.content = v'.content) :
    FollowsContent (f.applyWith eval v) (f'.applyWith eval v') := by
  cases f with
  | closure env param stamp body =>
    cases f' <;> simp only [Value.content, Value.closure.injEq, reduceCtorEq] at hf
    obtain ⟨henv, rfl, -, hbody⟩ := hf
    exact heval (Env.SameContent.push henv param hv) hbody
  | host f =>
    cases f' <;> simp only [Value.content, Value.host.injEq, reduceCtorEq] at hf
    exact (HostFn.call_follows hf hv).mapError fun _ _ ↦ trivial
  | absent | int | str | record => exact .fail trivial

theorem Value.project_follows {v v' : Value} (hv : v.content = v'.content) (index : Nat) :
    FollowsContent (v.project index) (v'.project index) := by
  cases v with
  | record members =>
    cases v' <;> simp only [Value.content, Value.record.injEq, reduceCtorEq] at hv
    rename_i members'
    rw [Value.contentMembers_eq_map, Value.contentMembers_eq_map] at hv
    refine .ofOption trivial fun member hmember ↦ ?_
    have hsome : (members'.map Value.content)[index]? = some member.content := by
      rw [← hv, List.getElem?_map, hmember]
      rfl
    obtain ⟨member', hmember', hcontent⟩ := by simpa [List.getElem?_map] using hsome
    exact ⟨member', hmember', hcontent.symm⟩
  | absent | int | str | closure | host => exact .fail trivial

theorem map_eq_map_iff_forall₂ {α β γ : Type} {f : α → γ} {g : β → γ} {xs : List α}
    {ys : List β} : xs.map f = ys.map g ↔ List.Forall₂ (fun x y ↦ f x = g y) xs ys := by
  rw [← List.forall₂_map_right_iff, ← List.forall₂_map_left_iff, List.forall₂_eq_eq_eq]

theorem Core.evalWith_follows {eval : Env Value → Core → Eval Value}
    (heval : ∀ {env env' t t'}, Env.SameContent env env' → Core.content t = Core.content t' →
      FollowsContent (eval env t) (eval env' t'))
    {env env' : Env Value} (henv : env.SameContent env') {t t' : Core}
    (ht : t.content = t'.content) :
    FollowsContent (t.evalWith eval env) (t'.evalWith eval env') := by
  cases t with
  | univ | quant | signature =>
    cases t' <;> simp only [Core.content, reduceCtorEq] at ht
    exact .pure rfl
  | lam param stamp body =>
    cases t' <;> simp only [Core.content, Core.lam.injEq, reduceCtorEq] at ht
    obtain ⟨rfl, -, hbody⟩ := ht
    refine .pure ?_
    rw [Value.content, Value.content, hbody, henv]
  | record members =>
    cases t' <;> simp only [Core.content, Core.record.injEq, reduceCtorEq] at ht
    rw [Core.contentMembers_eq_map, Core.contentMembers_eq_map, map_eq_map_iff_forall₂] at ht
    refine .bind anyJournal_total (.mapM anyJournal_total (fun _ _ ↦ heval henv) ht)
      fun vs ws hvs ↦ .pure ?_
    rw [Value.content, Value.content, Value.contentMembers_eq_map, Value.contentMembers_eq_map,
      map_eq_map_iff_forall₂.mpr hvs]
  | app rank type operator operand =>
    cases t' <;> simp only [Core.content, Core.app.injEq, reduceCtorEq] at ht
    obtain ⟨-, -, hoperator, hoperand⟩ := ht
    refine .bind anyJournal_total (heval henv hoperator) fun f f' hf ↦ ?_
    refine .bind anyJournal_total (heval henv hoperand) fun v v' hv ↦ ?_
    exact Value.applyWith_follows heval hf hv
  | proj rank type operator index =>
    cases t' <;> simp only [Core.content, Core.proj.injEq, reduceCtorEq] at ht
    obtain ⟨-, -, hoperator, rfl⟩ := ht
    refine .bind anyJournal_total (heval henv hoperator) fun v v' hv ↦ ?_
    exact Value.project_follows hv index
  | var name =>
    cases t' <;> simp only [Core.content, Core.var.injEq, reduceCtorEq] at ht
    subst ht
    exact .ofExcept (fun _ ↦ trivial) fun v hv ↦ henv.lookup hv
  | const value =>
    cases t' <;> simp only [Core.content, Core.const.injEq, reduceCtorEq] at ht
    exact .pure ht

/-- Terms of the same content have values of the same content. -/
theorem Core.eval_follows (fuel : Nat) {env env' : Env Value} (henv : env.SameContent env')
    {t t' : Core} (ht : t.content = t'.content) :
    FollowsContent (t.eval fuel env) (t'.eval fuel env') := by
  induction fuel generalizing env env' t t' with
  | zero => exact .outOfFuel
  | succ fuel ih =>
    rw [Core.eval_succ, Core.eval_succ]
    refine .bind anyJournal_total (Core.evalWith_follows (fun henv ht ↦ ih henv ht) henv ht)
      fun v w hv ↦ ?_
    refine .bind (R := fun _ _ ↦ True) anyJournal_total
      (.modifyGet (fun _ _ ↦ trivial) fun _ _ _ ↦ ⟨trivial, trivial⟩) fun _ _ _ ↦ .pure hv

end RankedTT
