import RankedTT.Proofs.CaptureFree

/-!
New names for binders. A substitution primes a binder that would capture a name, and normalization
gives a generated name to a binder whose name is in scope. Both searches are loops that end, since
the candidates differ from each other and only finitely many names are taken. The names that they
end at are new: a primed binder captures nothing that is substituted below it, and the names that
are generated with one counter differ from each other, whatever environments they are for.
-/

set_option autoImplicit false
set_option relaxedAutoImplicit false

namespace RankedTT

/-! ### Primed binders -/

namespace Substitution

/-- The name `x` is free in no term that is substituted for a name other than `name`. Below a binder
called `name` nothing is substituted for that name. -/
def AvoidsBelow (σ : Substitution) (name x : String) : Prop :=
  ∀ entry ∈ σ, entry.1 ≠ name → entry.2.occursFree x = false

theorem captures_without_eq_false_iff {σ : Substitution} {name x : String} :
    captures (without σ name) x = false ↔ σ.AvoidsBelow name x := by
  simp [captures, without, AvoidsBelow]

theorem contains_freeNames (σ : Substitution) (body : Core) (x : String) :
    (freeNames σ ++ body.freeNames).contains x = (captures σ x || body.occursFree x) := by
  have hcaptures : captures σ x = true ↔ x ∈ freeNames σ := by
    simp [captures, mem_freeNames_iff, Core.occursFree_iff_mem]
  rw [Bool.eq_iff_iff, List.contains_iff_mem, List.mem_append, Bool.or_eq_true, hcaptures,
    Core.occursFree_iff_mem]

/-- The loop that gives a binder its new name: primes are added, one at least, as long as the name
is free in a term that is substituted below the binder or in the body. It ends after no more rounds
than there are such free names, at a name that is safe for the binder. The binder is renamed to it
exactly if it is not anonymous and would capture something under its own name. -/
theorem enter_picksSafeName (σ : Substitution) (name : String) (body : Core) :
    ∃ rounds fresh,
      rounds ≤ (freeNames (without σ name) ++ body.freeNames).length ∧
      Loop (fun x ↦ captures (without σ name) x || body.occursFree x) (· ++ "'") (name ++ "'")
        rounds fresh ∧
      fresh ≠ name ∧ body.occursFree fresh = false ∧ σ.AvoidsBelow name fresh ∧
      (enter σ name body = (fresh, insert (without σ name) name (.var fresh)) ∧
          name ≠ anonymous ∧ ¬ σ.AvoidsBelow name name ∨
        enter σ name body = (name, without σ name) ∧
          (name = anonymous ∨ σ.AvoidsBelow name name)) := by
  obtain ⟨rounds, hrounds, hloop⟩ :=
    loop_freshPrimed (freeNames (without σ name) ++ body.freeNames) name
  have hguard := funext (contains_freeNames (without σ name) body)
  rw [hguard] at hloop
  have hsafe := Bool.or_eq_false_iff.mp hloop.guard_eq_false
  refine ⟨rounds, _, hrounds, hloop, freshPrimed_ne _ _, hsafe.2,
    captures_without_eq_false_iff.mp hsafe.1, ?_⟩
  by_cases hkept : name = anonymous ∨ σ.AvoidsBelow name name
  · right
    refine ⟨?_, hkept⟩
    rw [enter, if_pos]
    simpa [captures_without_eq_false_iff] using hkept
  · left
    refine ⟨?_, not_or.mp hkept⟩
    rw [enter, if_neg]
    simpa [captures_without_eq_false_iff] using hkept

/-- One prime is not enough, since it is in use below the binder. Two are, although that name is
free in a term that is substituted for the name of the binder. -/
theorem enter_picksSafeName_secondPrime :
    let σ : Substitution := [("x", .var "y"), ("y", .var "y''")]
    let body : Core := .app 0 (.var "F") (.var "x") (.var "y'")
    ("x", .var "y") ∈ σ ∧ "x" ≠ "y" ∧
      enter σ "y" body = ("y''", [("x", .var "y"), ("y", .var "y''")]) ∧
      (∃ rounds, Loop (fun x ↦ captures (without σ "y") x || body.occursFree x) (· ++ "'")
        ("y" ++ "'") rounds "y''") ∧
      body.occursFree "y''" = false ∧ (Core.var "y").occursFree "y''" = false := by
  intro σ body
  have hmem : ("x", .var "y") ∈ σ := List.mem_cons_self
  have hne : "x" ≠ "y" := by decide
  have henter : enter σ "y" body = ("y''", [("x", .var "y"), ("y", .var "y''")]) := rfl
  obtain ⟨rounds, fresh, -, hloop, -, hbody, hterms, hcases⟩ := enter_picksSafeName σ "y" body
  rcases hcases with ⟨hrenamed, -⟩ | ⟨-, hkept⟩
  · obtain rfl : fresh = "y''" := congrArg Prod.fst (hrenamed.symm.trans henter)
    exact ⟨hmem, hne, henter, ⟨rounds, hloop⟩, hbody, hterms _ hmem hne⟩
  · rcases hkept with hanonymous | havoids
    · exact absurd hanonymous (by decide)
    · exact absurd (havoids _ hmem hne) (by decide)

end Substitution

/-! ### Generated names -/

namespace NormEnv

/-- Every free name of the value is mapped. -/
def Covers (env : NormEnv) (value : Core) : Prop :=
  ∀ y, value.occursFree y = true → Env.maps env y = true

theorem covers_iff {env : NormEnv} {value : Core} :
    env.Covers value ↔ ∀ y ∈ value.freeNames, Env.maps env y = true := by
  simp only [Covers, Core.occursFree_iff_mem]

/-- Below a binder its variable is covered, and so is every value that was covered outside. -/
theorem Covers.bind {env : NormEnv} {value : Core} (name : String) (c : Nat)
    (h : value = .var (bind env name c).1.1 ∨ env.Covers value) :
    Covers (NormEnv.bind env name c).1.2 value := by
  rw [covers_iff] at h ⊢
  intro y hy
  rw [maps_bind]
  rcases h with rfl | h
  · exact .inr (.inl (List.mem_singleton.mp hy))
  · exact .inr (.inr (h y hy))

/-- A binder adds its own variable to the values of an environment, and no other. -/
theorem value_of_mem_bind {env : NormEnv} {name : String} {c : Nat} {entry : String × Core}
    (h : entry ∈ (bind env name c).1.2) :
    entry.2 = .var (bind env name c).1.1 ∨ entry ∈ env := by
  rcases bind_cases env name c with ⟨hbind, -⟩ | ⟨k, -, hbind, -⟩
  · rw [hbind] at h ⊢
    exact (List.mem_cons.mp h).imp_left (congrArg Prod.snd)
  · rw [hbind] at h ⊢
    rcases List.mem_cons.mp h with rfl | h
    · exact .inl rfl
    · exact (List.mem_cons.mp h).imp_left (congrArg Prod.snd)

theorem value_of_get?_push {env : NormEnv} {name x : String} {pushed value : Core}
    (h : Env.get? (Env.push env name pushed) x = some value) :
    value = pushed ∨ Env.get? env x = some value := by
  by_cases hx : x = name
  · rw [hx, Env.get?_push_self] at h
    exact .inl (Option.some.inj h).symm
  · rw [Env.get?_push_of_ne _ _ hx] at h
    exact .inr h

/-- So it is for the values that are found in the environment. -/
theorem value_of_get?_bind {env : NormEnv} {name x : String} {c : Nat} {value : Core}
    (h : Env.get? (bind env name c).1.2 x = some value) :
    value = .var (bind env name c).1.1 ∨ Env.get? env x = some value := by
  rcases bind_cases env name c with ⟨hbind, -⟩ | ⟨k, -, hbind, -⟩
  · rw [hbind] at h ⊢
    exact value_of_get?_push h
  · rw [hbind] at h ⊢
    rcases value_of_get?_push h with hvalue | h
    · exact .inl hvalue
    · exact value_of_get?_push h

theorem get?_bind_self (env : NormEnv) (name : String) (c : Nat) :
    Env.get? (bind env name c).1.2 name = some (.var (bind env name c).1.1) := by
  rcases bind_cases env name c with ⟨hbind, -⟩ | ⟨k, -, hbind, -⟩
  · rw [hbind]
    exact Env.get?_push_self _ _ _
  · rw [hbind]
    exact Env.get?_push_self _ _ _

end NormEnv

/-- A call that may take a name from the counter, with the environment that it is made on: the next
name is asked for, or a binder is brought into scope. -/
inductive NameRequest where
  | next (env : NormEnv)
  | bind (env : NormEnv) (name : String)

namespace NameRequest

/-- The name that a call takes from the counter, if it takes one, and the counter after it. A binder
that keeps its name leaves the counter as it is. -/
def answer : NameRequest → Nat → Option String × Nat
  | .next env, c => let (fresh, c') := NormEnv.freshName env c; (some fresh, c')
  | .bind env name, c =>
    let ((binder, _), c') := NormEnv.bind env name c
    (if c' = c then none else some binder, c')

/-- The names that are generated by calls in turn, which share one counter. -/
def generatedNames : List NameRequest → Nat → List String
  | [], _ => []
  | request :: requests, c =>
    (request.answer c).1.toList ++ generatedNames requests (request.answer c).2

/-- A call leaves the counter alone, or it generates the name of a number from the counter on and
sets the counter behind it. -/
theorem answer_cases (request : NameRequest) (c : Nat) :
    request.answer c = (none, c) ∨
      ∃ k ≥ c, request.answer c = (some (generatedName k), k + 1) := by
  cases request with
  | next env =>
    obtain ⟨_, -, k, hk, -, hfresh⟩ := NormEnv.loop_freshName env c
    exact .inr ⟨k, hk, by rw [answer, hfresh]⟩
  | bind env name =>
    rcases NormEnv.bind_cases env name c with ⟨hbind, -⟩ | ⟨k, hk, hbind, -⟩
    · left
      rw [answer, hbind]
      simp
    · right
      have hmoved : k + 1 ≠ c := Nat.ne_of_gt (Nat.lt_succ_of_le hk)
      exact ⟨k, hk, by rw [answer, hbind]; simp [hmoved]⟩

/-- Calls in turn only generate names of numbers from the counter on. -/
theorem exists_of_mem_generatedNames {requests : List NameRequest} {c : Nat} {name : String}
    (h : name ∈ generatedNames requests c) : ∃ k ≥ c, name = generatedName k := by
  induction requests generalizing c with
  | nil => cases h
  | cons request requests ih =>
    rw [generatedNames] at h
    rcases request.answer_cases c with hanswer | ⟨k, hk, hanswer⟩
    · rw [hanswer] at h
      exact ih h
    · rw [hanswer] at h
      rcases List.mem_cons.mp h with rfl | h
      · exact ⟨k, hk, rfl⟩
      · obtain ⟨j, hj, hname⟩ := ih h
        exact ⟨j, Nat.le_of_lt (Nat.lt_of_le_of_lt hk hj), hname⟩

theorem nodup_generatedNames (requests : List NameRequest) (c : Nat) :
    (generatedNames requests c).Nodup := by
  induction requests generalizing c with
  | nil => exact List.nodup_nil
  | cons request requests ih =>
    rw [generatedNames]
    rcases request.answer_cases c with hanswer | ⟨k, hk, hanswer⟩
    · rw [hanswer]
      exact ih c
    · rw [hanswer]
      refine List.nodup_cons.mpr ⟨fun hmem ↦ ?_, ih (k + 1)⟩
      obtain ⟨j, hj, hname⟩ := exists_of_mem_generatedNames hmem
      exact absurd (generatedName_injective hname) (Nat.ne_of_lt hj)

end NameRequest

/-- Generated names are new. The search for one counts on from the counter and passes over mapped
names only, so over no more than there are; it ends at a name that is not mapped, with the counter
behind it. Calls that share a counter generate names that differ from each other, whatever
environments they are made on. A binder that is brought into scope gets a name that was not mapped,
unless it is anonymous; below it its own name stands for a variable of the new name, and every free
name of a value is mapped if that was so outside, be it for all values or for those in force. -/
theorem NormEnv.generatedNames_areNew :
    (∀ (env : NormEnv) (c : Nat), ∃ passed k,
      passed ≤ (env.map Prod.fst).toFinset.card ∧
      Loop (fun i ↦ Env.maps env (generatedName i)) (· + 1) c passed k ∧
      freshName env c = (generatedName k, k + 1) ∧
      Env.maps env (generatedName k) = false ∧ c < k + 1) ∧
    (∀ (requests : List NameRequest) (c : Nat), (NameRequest.generatedNames requests c).Nodup) ∧
    ∀ (env : NormEnv) (name : String) (c : Nat),
      (Env.maps env (bind env name c).1.1 = false ∨
        name = anonymous ∧ (bind env name c).1.1 = anonymous) ∧
      Env.get? (bind env name c).1.2 name = some (.var (bind env name c).1.1) ∧
      ((∀ x value, Env.get? env x = some value → env.Covers value) →
        ∀ x value, Env.get? (bind env name c).1.2 x = some value →
          Covers (bind env name c).1.2 value) ∧
      ((∀ entry ∈ env, env.Covers entry.2) →
        ∀ entry ∈ (bind env name c).1.2, Covers (bind env name c).1.2 entry.2) := by
  refine ⟨fun env c ↦ ?_, NameRequest.nodup_generatedNames, fun env name c ↦ ?_⟩
  · obtain ⟨passed, hpassed, k, hk, hloop, hfresh⟩ := loop_freshName env c
    exact ⟨passed, k, hpassed, hloop, hfresh, hloop.guard_eq_false, Nat.lt_succ_of_le hk⟩
  · refine ⟨?_, get?_bind_self env name c, fun hvalues x value h ↦ ?_, fun hvalues entry h ↦ ?_⟩
    · rcases bind_cases env name c with ⟨hbind, rfl | hfree⟩ | ⟨k, -, hbind, hfree, -⟩
      · exact .inr ⟨rfl, by rw [hbind]⟩
      · exact .inl (by rwa [hbind])
      · exact .inl (by rwa [hbind])
    · exact Covers.bind name c ((value_of_get?_bind h).imp_right (hvalues x value))
    · exact Covers.bind name c ((value_of_mem_bind h).imp_right (hvalues entry))

/-- Where `_0` is in scope, a second binder called `x` gets the name `_1`. The names after it are
generated behind it, also where nothing is in scope. -/
theorem NormEnv.generatedNames_areNew_shadowed :
    let env : NormEnv := [("x", .lam "z" none (.var "y")), ("_0", .var "_0"), ("y", .var "y")]
    (∀ entry ∈ env, env.Covers entry.2) ∧
      (∀ x value, Env.get? env x = some value → env.Covers value) ∧
      (bind env "x" 0).1.1 = "_1" ∧ Env.maps env "_1" = false ∧
      Env.get? (bind env "x" 0).1.2 "x" = some (.var "_1") ∧
      (∀ entry ∈ (bind env "x" 0).1.2, Covers (bind env "x" 0).1.2 entry.2) ∧
      (∀ x value, Env.get? (bind env "x" 0).1.2 x = some value →
        Covers (bind env "x" 0).1.2 value) ∧
      NameRequest.generatedNames [.bind env "x", .next [], .bind env "w", .next env] 0 =
        ["_1", "_2", "_3"] ∧
      ["_1", "_2", "_3"].Nodup := by
  intro env
  have hentries : ∀ entry ∈ env, env.Covers entry.2 := by
    simp only [covers_iff]
    decide
  have hvalues (x : String) (value : Core) (h : Env.get? env x = some value) : env.Covers value :=
    hentries _ (Substitution.mem_of_get? h)
  have hname : (bind env "x" 0).1.1 = "_1" := by decide +kernel
  have hnames : NameRequest.generatedNames [.bind env "x", .next [], .bind env "w", .next env] 0 =
      ["_1", "_2", "_3"] := by
    decide +kernel
  obtain ⟨-, hnodup, hbound⟩ := generatedNames_areNew
  obtain ⟨hnew, hvariable, hinForce, hall⟩ := hbound env "x" 0
  rw [hname] at hnew hvariable
  have hfree := hnew.resolve_right fun h ↦ absurd h.1 (by decide)
  exact ⟨hentries, hvalues, hname, hfree, hvariable, hall hentries, hinForce hvalues, hnames,
    hnames ▸ hnodup _ 0⟩

end RankedTT
