import RankedTT.Core.Identical

/-!
Core terms up to the names of binders. A variable refers to its binder by the number of binders in
between, and free names stay names; stamps are left out, and of a constant only that is kept which
the equality of values looks at. The members of a record and of a record type are chained, so that
there is one kind of terms; the names of record members are labels and are kept.

Substitution replaces all variables at once. The laws at the end are the usual ones: renaming and
substitution compose, and the instance of a body commutes with both.
-/

set_option autoImplicit false
set_option relaxedAutoImplicit false

namespace RankedTT

/-! ### What the equality of values looks at -/

inductive HostKey where
  | binary (op : BinaryOp)
  | applied (op : BinaryOp) (stamp : Nat)
  | identity
  | failing
  | halving

/-- A value without what its equality ignores: captured environments, the bodies of closures, and
the operands of partial applications. -/
inductive ValueKey where
  | absent
  | int (n : Int)
  | str (s : String)
  | record (members : ValueKey)
  | nil
  | cons (head tail : ValueKey)
  | closure (param : String) (stamp : Stamp)
  | host (key : HostKey)

def HostFn.key : HostFn → HostKey
  | .binary op => .binary op
  | .applied op _ stamp => .applied op stamp
  | .identity => .identity
  | .failing => .failing
  | .halving => .halving

mutual

def Value.key : Value → ValueKey
  | .absent => .absent
  | .int n => .int n
  | .str s => .str s
  | .record members => .record (Value.keyMembers members)
  | .closure _ param stamp _ => .closure param stamp
  | .host f => .host f.key

def Value.keyMembers : List Value → ValueKey
  | [] => .nil
  | v :: vs => .cons v.key (Value.keyMembers vs)

end

theorem HostFn.identical_iff {f g : HostFn} : f.identical g = true ↔ f.key = g.key := by
  cases f <;> cases g <;> simp [HostFn.identical, HostFn.key]

mutual

theorem Value.identical_iff : (v w : Value) → (v.identical w = true ↔ v.key = w.key)
  | .record vs, w => by
    cases w with
    | record ws => simp [Value.identical, Value.key, Value.identicalMembers_iff vs ws]
    | _ => simp [Value.identical, Value.key]
  | .host f, w => by
    cases w with
    | host g => simp [Value.identical, Value.key, HostFn.identical_iff]
    | _ => simp [Value.identical, Value.key]
  | .absent, w | .int _, w | .str _, w | .closure .., w => by
    cases w <;> simp [Value.identical, Value.key]

theorem Value.identicalMembers_iff : (vs ws : List Value) →
    (Value.identicalMembers vs ws = true ↔ Value.keyMembers vs = Value.keyMembers ws)
  | [], ws => by cases ws <;> simp [Value.identicalMembers, Value.keyMembers]
  | v :: vs, ws => by
    cases ws with
    | nil => simp [Value.identicalMembers, Value.keyMembers]
    | cons w ws =>
      simp [Value.identicalMembers, Value.keyMembers, v.identical_iff w,
        Value.identicalMembers_iff vs ws]

end

/-- Constants are compared by the equality of values. -/
theorem Value.beq_iff {v w : Value} : (v == w) = true ↔ v.key = w.key := v.identical_iff w

theorem Value.eq_int_of_beq {v : Value} {n : Int} (h : (v == .int n) = true) : v = .int n := by
  rw [Value.beq_iff] at h
  cases v with
  | int m =>
    injection h with h
    rw [h]
  | _ => cases h

/-! ### Terms -/

/-- A variable: a binder, counted from the inside, or a free name. -/
inductive Ref where
  | bound (index : Nat)
  | free (name : String)

def Ref.rename (r : Nat → Nat) : Ref → Ref
  | .bound i => .bound (r i)
  | .free x => .free x

/-- `lam`, `quant` and `declare` bind in their last field. -/
inductive Nameless where
  | univ (rank : Nat)
  | quant (polarity : Polarity) (rank : Nat) (domain codomain : Nameless)
  | signature (members : Nameless)
  | declare (rank : Nat) (type : Nameless) (name : String) (rest : Nameless)
  | lam (body : Nameless)
  | record (members : Nameless)
  | cons (head tail : Nameless)
  | nil
  | app (rank : Nat) (type operator operand : Nameless)
  | proj (rank : Nat) (type operator : Nameless) (index : Nat)
  | var (ref : Ref)
  | const (key : ValueKey)

namespace Nameless

/-- The member at a position of a chain. -/
def nth : Nameless → Nat → Option Nameless
  | cons head _, 0 => some head
  | cons _ tail, i + 1 => tail.nth i
  | _, _ => none

def liftIndex (r : Nat → Nat) : Nat → Nat
  | 0 => 0
  | i + 1 => r i + 1

def rename (r : Nat → Nat) : Nameless → Nameless
  | univ rank => univ rank
  | quant polarity rank domain codomain =>
    quant polarity rank (domain.rename r) (codomain.rename (liftIndex r))
  | signature members => signature (members.rename r)
  | declare rank type name rest => declare rank (type.rename r) name (rest.rename (liftIndex r))
  | lam body => lam (body.rename (liftIndex r))
  | record members => record (members.rename r)
  | cons head tail => cons (head.rename r) (tail.rename r)
  | nil => nil
  | app rank type operator operand =>
    app rank (type.rename r) (operator.rename r) (operand.rename r)
  | proj rank type operator index => proj rank (type.rename r) (operator.rename r) index
  | var ref => var (ref.rename r)
  | const key => const key

/-- Move a term below one more binder. -/
def shift (t : Nameless) : Nameless := t.rename (· + 1)

/-- Move a substitution below a binder. -/
def lift (τ : Ref → Nameless) : Ref → Nameless
  | .bound 0 => var (.bound 0)
  | .bound (i + 1) => (τ (.bound i)).shift
  | .free x => (τ (.free x)).shift

def subst (τ : Ref → Nameless) : Nameless → Nameless
  | univ rank => univ rank
  | quant polarity rank domain codomain =>
    quant polarity rank (domain.subst τ) (codomain.subst (lift τ))
  | signature members => signature (members.subst τ)
  | declare rank type name rest => declare rank (type.subst τ) name (rest.subst (lift τ))
  | lam body => lam (body.subst (lift τ))
  | record members => record (members.subst τ)
  | cons head tail => cons (head.subst τ) (tail.subst τ)
  | nil => nil
  | app rank type operator operand =>
    app rank (type.subst τ) (operator.subst τ) (operand.subst τ)
  | proj rank type operator index => proj rank (type.subst τ) (operator.subst τ) index
  | var ref => τ ref
  | const key => const key

/-- Replace the innermost binder by a term. -/
def instantiation (a : Nameless) : Ref → Nameless
  | .bound 0 => a
  | .bound (i + 1) => var (.bound i)
  | .free x => var (.free x)

/-- The body of a binder with a term for its variable. -/
def inst (body a : Nameless) : Nameless := body.subst (instantiation a)

/-! ### Laws of substitution -/

theorem liftIndex_comp (r s : Nat → Nat) : liftIndex s ∘ liftIndex r = liftIndex (s ∘ r) := by
  funext i
  cases i <;> rfl

theorem rename_rename (t : Nameless) (r s : Nat → Nat) :
    (t.rename r).rename s = t.rename (s ∘ r) := by
  induction t generalizing r s with
  | var ref => cases ref <;> rfl
  | _ => simp_all [rename, liftIndex_comp]

theorem lift_rename (τ : Ref → Nameless) (r : Nat → Nat) :
    (fun v : Ref ↦ lift τ (v.rename (liftIndex r))) = lift fun v ↦ τ (v.rename r) := by
  funext v
  rcases v with ⟨⟨⟩ | i⟩ | x <;> rfl

theorem subst_rename (t : Nameless) (r : Nat → Nat) (τ : Ref → Nameless) :
    (t.rename r).subst τ = t.subst fun v ↦ τ (v.rename r) := by
  induction t generalizing r τ with
  | var ref => rfl
  | _ => simp_all [rename, subst, lift_rename]

theorem rename_lift (τ : Ref → Nameless) (r : Nat → Nat) :
    (fun v ↦ (lift τ v).rename (liftIndex r)) = lift fun v ↦ (τ v).rename r := by
  funext v
  rcases v with ⟨⟨⟩ | i⟩ | x
  · rfl
  · simp only [lift, shift, rename_rename]
    rfl
  · simp only [lift, shift, rename_rename]
    rfl

theorem rename_subst (t : Nameless) (r : Nat → Nat) (τ : Ref → Nameless) :
    (t.subst τ).rename r = t.subst fun v ↦ (τ v).rename r := by
  induction t generalizing r τ with
  | var ref => rfl
  | _ => simp_all [rename, subst, rename_lift]

theorem subst_shift (t : Nameless) (τ : Ref → Nameless) :
    t.shift.subst (lift τ) = (t.subst τ).shift := by
  simp only [shift, subst_rename, rename_subst]
  congr 1
  funext v
  cases v <;> rfl

theorem subst_lift (τ υ : Ref → Nameless) :
    (fun v ↦ (lift τ v).subst (lift υ)) = lift fun v ↦ (τ v).subst υ := by
  funext v
  rcases v with ⟨⟨⟩ | i⟩ | x
  · rfl
  · exact subst_shift _ υ
  · exact subst_shift _ υ

theorem subst_subst (t : Nameless) (τ υ : Ref → Nameless) :
    (t.subst τ).subst υ = t.subst fun v ↦ (τ v).subst υ := by
  induction t generalizing τ υ with
  | var ref => rfl
  | _ => simp_all [subst, subst_lift]

theorem lift_var : lift var = var := by
  funext v
  rcases v with ⟨⟨⟩ | i⟩ | x <;> rfl

@[simp]
theorem subst_var (t : Nameless) : t.subst var = t := by
  induction t with
  | var ref => rfl
  | _ => simp_all [subst, lift_var]

theorem rename_eq_subst (t : Nameless) (r : Nat → Nat) :
    t.rename r = t.subst fun v ↦ var (v.rename r) := by
  have h := subst_rename t r var
  rwa [subst_var] at h

@[simp]
theorem inst_shift (t a : Nameless) : t.shift.inst a = t := by
  have h : (fun v : Ref ↦ instantiation a (v.rename (· + 1))) = var := by
    funext v
    cases v <;> rfl
  rw [inst, shift, subst_rename, h, subst_var]

theorem subst_inst (body a : Nameless) (τ : Ref → Nameless) :
    (body.inst a).subst τ = (body.subst (lift τ)).inst (a.subst τ) := by
  simp only [inst, subst_subst]
  congr 1
  funext v
  rcases v with ⟨⟨⟩ | i⟩ | x
  · rfl
  · exact (inst_shift _ _).symm
  · exact (inst_shift _ _).symm

theorem rename_inst (body a : Nameless) (r : Nat → Nat) :
    (body.inst a).rename r = (body.rename (liftIndex r)).inst (a.rename r) := by
  simp only [inst, rename_subst, subst_rename]
  congr 1
  funext v
  rcases v with ⟨⟨⟩ | i⟩ | x <;> rfl

theorem nth_subst (t : Nameless) (τ : Ref → Nameless) {i : Nat} {m : Nameless}
    (h : t.nth i = some m) : (t.subst τ).nth i = some (m.subst τ) := by
  induction t generalizing i with
  | cons head tail _ ih =>
    cases i with
    | zero => simpa [nth, subst] using congrArg (Option.map (subst τ)) h
    | succ i => exact ih h
  | _ => simp [nth] at h

end Nameless

end RankedTT
