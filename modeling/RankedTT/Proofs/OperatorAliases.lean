import RankedTT.Proofs.BoundNames
import RankedTT.Proofs.OperatorPrograms

/-!
The names of an operation. Every operation of the prelude has two names, a word and a symbol, and a
program means the same whichever of them it uses: it fails, or it has the same type and, if its
value is an integer or a string, the same value. The exception is the symbol for multiplication,
which is also the name of anonymous binders.
-/

set_option autoImplicit false
set_option relaxedAutoImplicit false

namespace RankedTT

open Prelude (operator?)
open RankedTT.Core (Clean Found Elaborates)
open Run

/-! ### Evaluation -/

/-- Values of terms that resolve. A closure knows the operations by all their names. -/
inductive Value.Resolves : Value → Value → Prop
  | absent : Value.Resolves .absent .absent
  | int (n : Int) : Value.Resolves (.int n) (.int n)
  | str (s : String) : Value.Resolves (.str s) (.str s)
  | record {values values' : List Value} (h : List.Forall₂ Value.Resolves values values') :
      Value.Resolves (.record values) (.record values')
  | closure {env env' : Env Value} (stamp stamp' : Stamp) {under free : Set String} {param : String}
      {body body' : Core} (hnames : env.map Prod.fst = env'.map Prod.fst)
      (hvalues : List.Forall₂ Value.Resolves (env.map Prod.snd) (env'.map Prod.snd))
      (hoperations : ∀ x op, operator? x = some op → Env.get? env x = some (.host (.binary op)))
      (hparam : operator? param = none) (hbody : Core.Resolves under free body body') :
      Value.Resolves (.closure env param stamp body) (.closure env' param stamp' body')
  | binary (op : BinaryOp) : Value.Resolves (.host (.binary op)) (.host (.binary op))
  | applied (op : BinaryOp) {value value' : Value} (stamp stamp' : Nat)
      (h : Value.Resolves value value') :
      Value.Resolves (.host (.applied op value stamp)) (.host (.applied op value' stamp'))

theorem Value.IsPrimitive.resolves {v : Value} (h : v.IsPrimitive) : v.Resolves v := by
  cases v with
  | int n => exact .int n
  | str s => exact .str s
  | host function =>
    cases function with
    | binary op => exact .binary op
    | _ => cases h
  | _ => cases h

theorem Value.Resolves.eq_int_iff {v w : Value} (h : v.Resolves w) {n : Int} :
    v = .int n ↔ w = .int n := by
  cases h <;> simp

theorem Value.Resolves.eq_str_iff {v w : Value} (h : v.Resolves w) {s : String} :
    v = .str s ↔ w = .str s := by
  cases h <;> simp

/-- The same names for values that resolve; the operations go by all their names. -/
structure Env.Resolves (env env' : Env Value) : Prop where
  names : env.map Prod.fst = env'.map Prod.fst
  values : List.Forall₂ Value.Resolves (env.map Prod.snd) (env'.map Prod.snd)
  operations : ∀ x op, operator? x = some op → Env.get? env x = some (.host (.binary op))

namespace Env.Resolves

variable {env env' : Env Value}

theorem lookup_cases (h : Env.Resolves env env') (x : String) :
    (Env.get? env x = none ∧ Env.get? env' x = none) ∨
      ∃ v w, Env.get? env x = some v ∧ Env.get? env' x = some w ∧ v.Resolves w := by
  obtain ⟨hnames, hvalues, -⟩ := h
  unfold Env.get?
  induction env generalizing env' with
  | nil =>
    cases env' with
    | nil => exact .inl ⟨rfl, rfl⟩
    | cons => cases hnames
  | cons entry env ih =>
    cases env' with
    | nil => cases hnames
    | cons entry' env' =>
      obtain ⟨hname, hnames⟩ := List.cons.inj hnames
      cases hvalues with
      | cons hvalue hvalues =>
        rw [List.lookup_cons, List.lookup_cons, ← hname]
        cases x == entry.1 with
        | false => exact ih hnames hvalues
        | true => exact .inr ⟨_, _, rfl, rfl, hvalue⟩

theorem push (h : Env.Resolves env env') {name : String} (hname : operator? name = none)
    {v w : Value} (hvalue : v.Resolves w) : Env.Resolves (env.push name v) (env'.push name w) where
  names := congrArg (name :: ·) h.names
  values := .cons hvalue h.values
  operations x op hop := by
    rw [Env.get?_push_of_ne]
    · exact h.operations x op hop
    · rintro rfl
      rw [hop] at hname
      cases hname

end Env.Resolves

/-- Two evaluations, whose journals are not compared. -/
def evalPace : Pace Journal Journal := ⟨fun _ _ ↦ True, fun _ ↦ True⟩

theorem BinaryOp.call_lockstep (op : BinaryOp) {v v' w w' : Value} (hv : v.Resolves v')
    (hw : w.Resolves w') :
    Lockstep evalPace Value.Resolves
      (Run.ofExcept id (op.call v w) : Run Journal HostError Value)
      (Run.ofExcept id (op.call v' w') : Run Journal HostError Value) := by
  unfold BinaryOp.call
  cases op.onIntegers? with
  | some f =>
    cases hv with
    | int m =>
      cases hw with
      | int n =>
        dsimp only
        split
        · exact .pure (.int _)
        · exact .fail
      | _ => exact .fail
    | _ => exact .fail
  | none =>
    cases hv with
    | str s =>
      cases hw with
      | str t => exact .pure (.str _)
      | _ => exact .fail
    | _ => exact .fail

variable {eval : Env Value → Core → Eval Value}

theorem Value.applyWith_lockstep [∀ env t, (eval env t).Grows]
    (heval : ∀ {env env' under free t u}, Env.Resolves env env' → Core.Resolves under free t u →
      Lockstep evalPace Value.Resolves (eval env t) (eval env' u))
    {v v' w w' : Value} (hv : v.Resolves v') (hw : w.Resolves w') :
    Lockstep evalPace Value.Resolves (v.applyWith eval w) (v'.applyWith eval w') := by
  unfold Value.applyWith
  cases hv with
  | closure stamp stamp' hnames hvalues hoperations hparam hbody =>
    exact heval (Env.Resolves.push ⟨hnames, hvalues, hoperations⟩ hparam hw) hbody
  | binary op =>
    have hstamp : Lockstep evalPace (fun _ _ ↦ True)
        (modifyGet Journal.takeStamp : Run Journal HostError Nat)
        (modifyGet Journal.takeStamp : Run Journal HostError Nat) :=
      .modifyGet fun _ _ _ ↦ ⟨trivial, trivial⟩
    exact (hstamp.bind fun _ _ _ ↦ .pure (.applied op _ _ hw)).mapError _ _
  | applied op stamp stamp' hvalue => exact (op.call_lockstep hvalue hw).mapError _ _
  | _ => exact .fail

theorem Value.project_lockstep {v v' : Value} (hv : v.Resolves v') (index : Nat) :
    Lockstep evalPace Value.Resolves (v.project index) (v'.project index) := by
  unfold Value.project
  cases hv with
  | @record values values' hvalues =>
    refine .ofOption ?_
    cases hvalue : values[index]? with
    | none =>
      rw [List.getElem?_eq_none_iff, hvalues.length_eq] at hvalue
      rw [List.getElem?_eq_none hvalue]
      exact .none
    | some value =>
      obtain ⟨value', hvalue', hresolves⟩ := exists_getElem?_of_forall₂ hvalues hvalue
      rw [hvalue']
      exact .some hresolves
  | _ => exact .fail

/-- Evaluation looks names of operations up, and finds the operations. -/
theorem Core.eval_lockstep (fuel : Nat) {env env' : Env Value} {under free : Set String}
    {t u : Core} (henv : Env.Resolves env env') (ht : Core.Resolves under free t u) :
    Lockstep evalPace Value.Resolves (t.eval fuel env) (u.eval fuel env') := by
  induction fuel generalizing env env' under free t u with
  | zero => exact .outOfFuel
  | succ fuel ih =>
    have hvalue : Lockstep evalPace Value.Resolves (t.evalWith (Core.eval fuel) env)
        (u.evalWith (Core.eval fuel) env') := by
      cases ht with
      | univ => exact .pure .absent
      | arrow => exact .pure .absent
      | quant => exact .pure .absent
      | signature => exact .pure .absent
      | lam stamp stamp' hparam hbody =>
        exact .pure (.closure stamp stamp' henv.names henv.values henv.operations hparam hbody)
      | record hmembers =>
        have hmembers := Core.resolvesMembers_iff.mp hmembers
        refine (Lockstep.mapM (fun _ _ h ↦ ih henv h) hmembers).bind fun _ _ hvalues ↦ ?_
        exact .pure (.record hvalues)
      | app _ _ hoperator hoperand =>
        refine (ih henv hoperator).bind fun v v' hv ↦ (ih henv hoperand).bind fun w w' hw ↦ ?_
        exact Value.applyWith_lockstep ih hv hw
      | proj _ index _ hoperator =>
        exact (ih henv hoperator).bind fun v v' hv ↦ Value.project_lockstep hv index
      | @var _ name _ =>
        simp only [Core.evalWith, Env.lookup]
        rcases henv.lookup_cases name with ⟨hnone, hnone'⟩ | ⟨v, w, hv, hw, hresolves⟩
        · rw [hnone, hnone']
          exact .fail
        · rw [hv, hw]
          exact .pure hresolves
      | @operation _ name op hname _ =>
        simp only [Core.evalWith, Env.lookup]
        rw [henv.operations name op hname]
        exact .pure (.binary op)
      | const hvalue => exact .pure hvalue.resolves
    have hrecord (event event' : Event) :
        Lockstep evalPace (fun _ _ ↦ True) (modify (Journal.record event) : Eval PUnit)
          (modify (Journal.record event') : Eval PUnit) :=
      .modifyGet fun _ _ _ ↦ ⟨trivial, trivial⟩
    rw [Core.eval_succ, Core.eval_succ]
    exact hvalue.bind fun _ _ hv ↦ (hrecord _ _).bind fun _ _ _ ↦ .pure hv

/-! ### Sessions -/

namespace Prelude

/-- An operation goes by its names in every environment made from the prelude. -/
theorem get?_env_operation {x : String} {op : BinaryOp} (h : operator? x = some op) :
    env.get? x = some (operation op) := by
  rcases eq_of_operator?_eq_some h with rfl | rfl <;> cases op <;> rfl

theorem checkerEnv_resolves (live : Bool) : Ctx.ResolvesTo live ⟨checkerEnv⟩ ⟨checkerEnv⟩ where
  bindings := by
    refine List.forall₂_same.mpr fun entry hentry ↦ ?_
    obtain ⟨⟨name, judgement⟩, hmem, rfl⟩ := List.mem_map.mp hentry
    obtain ⟨rfl, hname⟩ | ⟨op, rfl⟩ := mem_env hmem
    · have hplain : operator? name = none := by
        rcases hname with rfl | rfl <;> decide
      exact ⟨rfl, rfl, .univ 0, fun _ ↦ .var hplain⟩
    · exact ⟨rfl, rfl, operation_type_clean op, fun _ ↦ .const trivial⟩
  operations x _ op hop := by
    rw [checkerEnv, Env.get?_mapBindings, get?_env_operation hop]
    rfl

end Prelude

namespace Session

theorem runtimeEnv_resolves : withPrelude.runtimeEnv.Resolves withPrelude.runtimeEnv where
  names := rfl
  values := by
    refine List.forall₂_same.mpr fun value hvalue ↦ ?_
    obtain ⟨entry, hentry, rfl⟩ := List.mem_map.mp hvalue
    obtain ⟨⟨name, judgement⟩, hmem, rfl⟩ := List.mem_map.mp hentry
    obtain ⟨rfl, -⟩ | ⟨op, rfl⟩ := Prelude.mem_env hmem
    · exact .absent
    · exact .binary op
  operations x op hop := by
    change (withPrelude.env.mapBindings _).get? x = _
    rw [Env.get?_mapBindings]
    change (Prelude.env.get? x).map _ = _
    rw [Prelude.get?_env_operation hop]
    rfl

/-- Two runs from the prelude, where no modules are loaded. -/
def aliasing (symbol : Bool) : Aliasing Modules Modules :=
  ⟨fun m m' ↦ m = .empty ∧ m' = .empty, symbol⟩

/-- Without a source of modules, there is nothing to import. -/
theorem loadModule_lockstep (fuel depth : Nat) (symbol : Bool) (name : String) :
    Run.Lockstep (aliasing symbol).pace (fun _ _ ↦ False)
      (loadModule fuel withPrelude depth name) (loadModule fuel withPrelude depth name) := by
  cases depth with
  | zero => exact .outOfFuel
  | succ depth =>
    rintro ⟨m, j⟩ ⟨m', j'⟩ ⟨rfl, rfl⟩ -
    exact ⟨⟨rfl, rfl⟩, .error _ _⟩

theorem ofEval_lockstep {α α' : Type} {R : α → α' → Prop} {symbol : Bool} {a : Eval α}
    {b : Eval α'} (h : Lockstep evalPace R a b) :
    Lockstep (aliasing symbol).pace R (Load.ofEval a) (Load.ofEval b) := by
  intro s s' hstates _
  obtain ⟨-, hagree⟩ := h s.journal s'.journal trivial fun _ _ ↦ trivial
  exact ⟨hstates, hagree.mapError _ _⟩

/-- A program is run in lockstep with the program that has operations in place of their names. -/
theorem run_lockstep {fuel depth : Nat} {symbol : Bool} {p : Term} (hp : p.OverPrelude)
    (hseen : p.Unshadowed symbol) :
    Lockstep (aliasing symbol).pace
      (fun r r' ↦ r.2.Related Clean Value.Resolves r'.2)
      (run fuel withPrelude (loadModule fuel withPrelude depth) p)
      (run fuel withPrelude (loadModule fuel withPrelude depth)
        (p.replaceVariables Prelude.operationOrVariable)) := by
  have hctx := Prelude.checkerEnv_resolves symbol
  have hhost : Host.Resolves (aliasing symbol) ⟨fuel, loadModule fuel withPrelude depth⟩
      ⟨fuel, loadModule fuel withPrelude depth⟩ :=
    ⟨rfl, loadModule_lockstep fuel depth symbol⟩
  have (name : String) : (loadModule fuel withPrelude depth name).Grows :=
    loadModule_grows fuel withPrelude depth name
  have hrule := (p.rule_resolves hhost hp id hseen).logged id
  unfold run
  refine ((hrule.infer hctx).mapError _ _).bind fun elaborated elaborated' helaborated ↦ ?_
  refine ((Check.normalized_lockstep hctx helaborated).mapError _ _).bind
    fun normalized normalized' hnormalized ↦ ?_
  have hresult {v v' : Value} (hv : v.Resolves v') :
      (normalized.withTerm v).Related Clean Value.Resolves (normalized'.withTerm v') :=
    ⟨hnormalized.rank, hnormalized.type, hv⟩
  unfold evaluate
  rw [← helaborated.rank]
  by_cases hrank : elaborated.rank = 0
  · simp only [if_pos hrank]
    refine (ofEval_lockstep ?_).bind fun _ _ hv ↦ .pure (hresult hv)
    exact Core.eval_lockstep fuel runtimeEnv_resolves helaborated.term
  · simp only [if_neg hrank]
    exact .pure (hresult .absent)

/-- A program is executed like the program that has operations in place of their names. -/
theorem execute_agrees {fuel : Nat} {symbol : Bool} {p : Term} (hp : p.OverPrelude)
    (hseen : p.Unshadowed symbol)
    (hclear : symbol = true →
      ∀ event ∈ ((execute fuel p).start ⟨withPrelude, .empty⟩).2.journal.events, event.Clear) :
    Agree (Classified.Related Clean Value.Resolves)
      ((execute fuel p).outcome ⟨withPrelude, .empty⟩)
      ((execute fuel (p.replaceVariables Prelude.operationOrVariable)).outcome
        ⟨withPrelude, .empty⟩) := by
  unfold outcome
  rw [start_execute] at hclear ⊢
  rw [start_execute]
  have hrun : Lockstep (aliasing symbol).pace _ (withPrelude.runTerm fuel p)
      (withPrelude.runTerm fuel (p.replaceVariables Prelude.operationOrVariable)) :=
    run_lockstep hp hseen
  obtain ⟨-, hagree⟩ := hrun ⟨.empty, .empty⟩ ⟨.empty, .empty⟩ ⟨rfl, rfl⟩
    fun event hevent h ↦ hclear h event hevent
  exact hagree.map fun _ _ h ↦ h

/-- The same rank, types that are equal up to the names of bound variables, and the same value if it
is an integer or a string. -/
structure SameAnswer (r r' : Classified Value) : Prop where
  rank : r.rank = r'.rank
  type : r.type.alphaEq r'.type = true
  int : ∀ n, r.term = .int n ↔ r'.term = .int n
  str : ∀ s, r.term = .str s ↔ r'.term = .str s

theorem sameAnswer_of_related {r r' r'' : Classified Value}
    (h : r.Related Clean Value.Resolves r'') (h' : r'.Related Clean Value.Resolves r'') :
    SameAnswer r r' where
  rank := h.rank.trans h'.rank.symm
  type := by
    rw [h.type.alphaEq_eq h'.type]
    exact (Core.alphaEq_iff _ _).mpr rfl
  int n := h.term.eq_int_iff.trans h'.term.eq_int_iff.symm
  str s := h.term.eq_str_iff.trans h'.term.eq_str_iff.symm

/-- Symbols mean the same as the words for the operations. With the prelude, a program whose
constants are literals, and which binds no name of an operation, fails if and only if the program
does that has words for all operations, and otherwise has the same answer. The symbol for
multiplication, which is also the name of anonymous binders, must not be used below one of them, and
where it is used at all no type that is found may have captured it. -/
theorem execute_inWords {fuel : Nat} {p : Term} (hp : p.OverPrelude) {symbol : Bool}
    (hseen : p.Unshadowed symbol)
    (hclear : symbol = true →
      ∀ event ∈ ((execute fuel p).start ⟨withPrelude, .empty⟩).2.journal.events, event.Clear) :
    Agree SameAnswer ((execute fuel p).outcome ⟨withPrelude, .empty⟩)
      ((execute fuel p.inWords).outcome ⟨withPrelude, .empty⟩) := by
  have hsymbols := execute_agrees hp hseen hclear
  have hwords : Agree (Classified.Related Clean Value.Resolves)
      ((execute fuel p.inWords).outcome ⟨withPrelude, .empty⟩) _ :=
    execute_agrees hp.inWords p.unshadowed_inWords nofun
  rw [p.replaceVariables_inWords] at hwords
  refine (hsymbols.trans_symm hwords).mono fun _ _ hresults ↦ ?_
  obtain ⟨_, hsymbol, hword⟩ := hresults
  exact sameAnswer_of_related hsymbol hword

/-- `(\(f : int -> int). f 3) (\x. x * x)` -/
def squareOfThree : Term :=
  .app (.typedLam "f" (.arrow (.var "int") (.var "int")) (.app (.var "f") (Prelude.int 3)))
    (.lam "x" (.applyAll (.var "*") [.var "x", .var "x"]))

theorem execute_inWords_square :
    squareOfThree.OverPrelude ∧ squareOfThree.Unshadowed true ∧
      (∀ event ∈ ((execute 50 squareOfThree).start ⟨withPrelude, .empty⟩).2.journal.events,
        event.Clear) ∧
      Agree SameAnswer ((execute 50 squareOfThree).outcome ⟨withPrelude, .empty⟩)
        ((execute 50 squareOfThree.inWords).outcome ⟨withPrelude, .empty⟩) := by
  have hp : squareOfThree.OverPrelude := by
    refine ⟨⟨by decide, ⟨nofun, trivial, trivial⟩, trivial, ?_⟩, by decide, ?_⟩
    · exact .int 3
    · exact ⟨⟨trivial, trivial⟩, trivial⟩
  have hseen : squareOfThree.Unshadowed true := by
    simp [squareOfThree, Term.arrow, Term.applyAll, Prelude.int, Term.Unshadowed,
      Bound.Unshadowed, anonymous]
  have hclear : ∀ event ∈ ((execute 50 squareOfThree).start ⟨withPrelude, .empty⟩).2.journal.events,
      event.Clear := by
    decide +kernel
  exact ⟨hp, hseen, hclear, execute_inWords hp hseen fun _ ↦ hclear⟩

/-- `int -> typeof (2 * 3)` -/
def typeOfProduct : Term :=
  .arrow (.var "int") (.typeOf (.applyAll (.var "*") [Prelude.int 2, Prelude.int 3]))

/-- Below the anonymous binder of a function type, the symbol for multiplication is an integer. -/
theorem execute_typeOfProduct :
    typeOfProduct.OverPrelude ∧
      (execute 50 typeOfProduct).Fails ⟨withPrelude, .empty⟩
        (.type (.expectedFunction (.var "*") (.var "int"))) ∧
      (execute 50 typeOfProduct.inWords).outcome ⟨withPrelude, .empty⟩ =
        .ok ⟨1, .univ 0, .absent⟩ := by
  refine ⟨⟨nofun, trivial, ⟨trivial, ?_⟩, ?_⟩, rfl, rfl⟩
  · exact .int 2
  · exact .int 3

/-- `\P. \f. f (2 * 3)`, of the type
`(P : int -> Type) -> ((x : int) -> int -> P x) -> int -> P (times 2 3)` -/
def indexedByProduct : Term :=
  let product (operation : String) : Term :=
    .applyAll (.var operation) [Prelude.int 2, Prelude.int 3]
  let indexed (index : Term) : Term := .arrow (.var "int") (.app (.var "P") index)
  .anno
    (.quant .universal (.type (.arrow (.var "int") (.univ 0))) (some "P")
      (.arrow (.quant .universal (.type (.var "int")) (some "x") (indexed (.var "x")))
        (indexed (product "times"))))
    (.lam "P" (.lam "f" (.app (.var "f") (product "*"))))

/-- The cause of a failure, which running out of fuel is not. -/
def cause? {ε α : Type} : Outcome ε α → Option ε
  | .error (.error cause) => some cause
  | _ => none

theorem fails_of_isSome_cause? {σ ε α : Type} {action : Run σ ε α} {s : σ}
    (h : (cause? (action.outcome s)).isSome = true) : ∃ cause, action.Fails s cause := by
  unfold cause? at h
  split at h
  · rename_i cause hcause
    exact ⟨cause, hcause⟩
  · cases h

/-- That nothing is captured cannot be left out. The symbol is not used below an anonymous binder,
but substituted into the type of `f`, where such a binder captures it. -/
theorem execute_indexedByProduct :
    indexedByProduct.Unshadowed true ∧
      (∃ cause, (execute 50 indexedByProduct).Fails ⟨withPrelude, .empty⟩ cause) ∧
      ∃ result, (execute 50 indexedByProduct.inWords).outcome ⟨withPrelude, .empty⟩ =
        .ok result := by
  refine ⟨?_, fails_of_isSome_cause? (by decide +kernel), ?_⟩
  · simp [indexedByProduct, Term.arrow, Term.applyAll, Prelude.int, Term.Unshadowed,
      Bound.Unshadowed, Bound.keepsAnonymous, anonymous]
  · obtain ⟨result, hresult, -⟩ := exists_eq_ok_of_any (p := fun _ ↦ true)
      (o := (execute 50 indexedByProduct.inWords).outcome ⟨withPrelude, .empty⟩) (by decide +kernel)
    exact ⟨result, hresult⟩

end Session

end RankedTT
