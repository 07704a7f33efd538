import RankedTT.Proofs.DefinedSessions

/-!
Members of records at run time. In a session of definitions, a member that is accessed has the value
that it has as the last of nested let bindings, if one of the two values is a datum. Two things have
to be known. The normal forms of the members before have to be faithful: what is put in for them has
to mean the same as they do. And the types that were defined must not compute a datum, since their
definitions are unfolded in a record, and are not evaluated.
-/

set_option autoImplicit false
set_option relaxedAutoImplicit false

namespace RankedTT

open Nameless Run

/-- Values that are read off reducts of terms with a common reduct are the same, if one of them is
a datum. -/
theorem Value.Reads.eq_of_join {t t' u s s' : Nameless} {v w : Value} (ht : Reduces t u)
    (ht' : Reduces t' u) (hs : Reduces t s) (hs' : Reduces t' s') (hv : v.Reads Inert s)
    (hw : w.Reads Inert s') (hdatum : v.IsDatum ∨ w.IsDatum) : v = w := by
  obtain ⟨r, hur, hsr⟩ := ht.confluent hs
  obtain ⟨r', hur', hsr'⟩ := ht'.confluent hs'
  obtain ⟨q, hrq, hrq'⟩ := hur.confluent hur'
  rcases hdatum with hdatum | hdatum
  · have hcomputes := (hv.computes hdatum).reduces (hsr.trans hrq)
    exact (hw.eq_of_computes (hsr'.trans hrq') hcomputes).symm
  · have hcomputes := (hw.computes hdatum).reduces (hsr'.trans hrq')
    exact hv.eq_of_computes (hsr.trans hrq) hcomputes

/-- A universe, a quantifier, a record type or a name. -/
def Core.isTypeForm : Core → Bool
  | .univ _ | .quant .. | .signature _ | .var _ => true
  | _ => false

/-- Where all names stand for types, so do types. -/
theorem Core.erasure_of_isTypeForm (t : Core) (h : t.isTypeForm = true) :
    (t.erasure fun _ ↦ .univ 0) = .univ 0 := by
  cases t with
  | univ | quant | signature | var => rfl
  | _ => cases h

namespace Session

/-- The types that were defined compute no datum. -/
def TypesInert (session : Session) : Prop :=
  ∀ x judgement, Env.get? session.runtimeEnv x = some .absent →
    Env.get? session.checkerEnv x = some judgement →
      (judgement.term.erasure fun _ ↦ .univ 0).Inert

/-- A test: types are inert in these forms, whose erasures are all the same. -/
theorem typesInert_of_forms {session : Session}
    (h : ∀ entry ∈ session.checkerEnv,
      (Env.get? session.runtimeEnv entry.1).any (· == .absent) = true →
        entry.2.term.isTypeForm = true) : session.TypesInert := by
  intro x judgement hvalue hget
  obtain ⟨_, _, henv, -⟩ := List.lookup_eq_some_iff.mp hget
  have hform := h (x, judgement) (by simp [henv]) (by rw [hvalue]; rfl)
  rw [judgement.term.erasure_of_isTypeForm hform]
  exact (NonDatum.univ 0).inert

/-- The value of a name is read off what the name is unfolded to. -/
theorem OpaqueValues.reads_unfolding {session : Session} (h : session.OpaqueValues)
    (hinert : session.TypesInert) :
    Env.Reads Inert session.runtimeEnv (Ctx.mk session.checkerEnv).unfolding := by
  intro x v hv
  rw [Ctx.unfolding_free]
  rcases h x v hv with rfl | ⟨judgement, hget, hterm⟩
  · cases hget : Env.get? session.checkerEnv x with
    | some judgement =>
      rw [Ctx.image_values_of_get? hget]
      exact .absent (hinert x judgement hv hget)
    | none =>
      rw [Ctx.image_values_of_unbound hget]
      exact .type
  · rw [Ctx.image_values_of_get? hget, hterm]
    exact v.reads_erasure

/-- Programs that are elaborated to terms of one rank with a common reduct have the same value, if
one of their values is a datum. -/
theorem Grounded.execute_eq_of_join {s : Progress Session} (hs : s.host.Grounded)
    (hvalues : s.host.OpaqueValues) (hinert : s.host.TypesInert) {fuel : Nat} {p q : Term}
    (hjoin : ∀ c d, (p.infer (Host.withoutImports fuel) ⟨s.host.checkerEnv⟩).Answers c →
      (q.infer (Host.withoutImports fuel) ⟨s.host.checkerEnv⟩).Answers d → c.rank = d.rank ∧
        ∃ u, Reduces (c.term.erasure (Ctx.mk s.host.checkerEnv).unfolding) u ∧
          Reduces (d.term.erasure (Ctx.mk s.host.checkerEnv).unfolding) u)
    {r l : Classified Value} (hr : (execute fuel p).outcome s = .ok r)
    (hl : (execute fuel q).outcome s = .ok l) (hdatum : r.term.IsDatum ∨ l.term.IsDatum) :
    r.term = l.term := by
  obtain ⟨_, hr⟩ := ran_of_execute hr
  obtain ⟨_, hl⟩ := ran_of_execute hl
  obtain ⟨c, hc, -, hevaluates, habsent⟩ := checked_of_ran hr
  obtain ⟨d, hd, -, hevaluates', habsent'⟩ := checked_of_ran hl
  obtain ⟨c', hc', hrank, -, hterm⟩ := hs.bare.answers hc
  obtain ⟨d', hd', hrank', -, hterm'⟩ := hs.bare.answers hd
  obtain ⟨hranks, u, hcu, hdu⟩ := hjoin c' d' hc' hd'
  rw [← Core.erasure_eq_of_unstamped_eq (Core.sameAs_iff.mp hterm)] at hcu
  rw [← Core.erasure_eq_of_unstamped_eq (Core.sameAs_iff.mp hterm')] at hdu
  have hsame : c.rank = d.rank := hrank.trans (hranks.trans hrank'.symm)
  by_cases hzero : c.rank = 0
  · obtain ⟨_, hevaluates⟩ := hevaluates hzero
    obtain ⟨_, hevaluates'⟩ := hevaluates' (hsame ▸ hzero)
    obtain ⟨_, hreduces, hreads⟩ := hevaluates.reads (hvalues.reads_unfolding hinert)
    obtain ⟨_, hreduces', hreads'⟩ := hevaluates'.reads (hvalues.reads_unfolding hinert)
    exact hreads.eq_of_join hcu hdu hreduces hreduces' hreads' hdatum
  · rw [habsent hzero, habsent' (hsame ▸ hzero)]

/-- A member of a record has the value that it has as the last of nested let bindings: in every
session of definitions, the two are the same as soon as one is a datum, provided that the normal
forms of the members before are faithful, and that the types that were defined are inert. -/
theorem execute_access_eq (journal : Journal) {calls : List Call}
    (hcalls : ∀ call ∈ calls, call.DefinesLiteral) (fuel : Nat) {x : String} {e : Term}
    {before later : List (String × Term)} {r l : Classified Value} (hx : x ≠ anonymous) :
    let s := after ⟨withPrelude, journal⟩ calls
    FaithfulMembers fuel ⟨s.host.checkerEnv⟩ before → s.host.TypesInert →
    (execute fuel (.access (.record (Fields.ofList (before ++ (x, e) :: later))) x)).outcome s =
      .ok r →
    (execute fuel (Term.letAll (before ++ [(x, e)]) (.var x))).outcome s = .ok l →
    r.term.IsDatum ∨ l.term.IsDatum → r.term = l.term := by
  intro s hfaithful hinert hr hl hdatum
  have hs : s.host.Grounded := grounded_after grounded_withPrelude hcalls
  have hvalues : s.host.OpaqueValues := opaqueValues_after (opaqueValues_withPrelude []) calls
  refine hs.execute_eq_of_join hvalues hinert (fun c d hc hd ↦ ?_) hr hl hdatum
  exact hs.isUnfolded.access_join hx hfaithful hc hd

/-! ### A record of values -/

/-- A session in which a function is defined. -/
def withDouble : Progress Session :=
  after ⟨withPrelude, .empty⟩ [.define 50 "double" none
    (.typedLam "n" (.var "int") (.applyAll (.var "plus") [.var "n", .var "n"]))]

/-- In `new { f = double; y = (\n : int. f n) 2; z = plus y (f y) }.z`, a function and what it is
applied to are members. -/
theorem execute_access_eq_withDouble :
    let before := [("f", .var "double"),
      ("y", .app (.typedLam "n" (.var "int") (.app (.var "f") (.var "n"))) (Prelude.int 2))]
    let z := Term.applyAll (.var "plus") [.var "y", .app (.var "f") (.var "y")]
    ∃ r l, (execute 50 (.access (.record (Fields.ofList (before ++ [("z", z)]))) "z")).outcome
        withDouble = .ok r ∧
      (execute 50 (Term.letAll (before ++ [("z", z)]) (.var "z"))).outcome withDouble = .ok l ∧
      r.term = .int 12 ∧ r.term = l.term := by
  intro before z
  obtain ⟨r, hr, htwelve⟩ := exists_eq_ok_of_any (p := fun r ↦ r.term == .int 12)
    (o := (execute 50 (.access (.record (Fields.ofList (before ++ [("z", z)]))) "z")).outcome
      withDouble) (by decide +kernel)
  obtain ⟨l, hl, -⟩ := exists_eq_ok_of_any (p := fun r ↦ r.term == .int 12)
    (o := (execute 50 (Term.letAll (before ++ [("z", z)]) (.var "z"))).outcome withDouble)
    (by decide +kernel)
  have htwelve := Value.eq_int_of_beq htwelve
  have hcalls : ∀ call ∈ [Call.define 50 "double" none (.typedLam "n" (.var "int")
      (.applyAll (.var "plus") [.var "n", .var "n"]))], call.DefinesLiteral := by
    simp [Call.DefinesLiteral, annotated, Term.applyAll, Term.mentions]
  have hfaithful : FaithfulMembers 50 ⟨withDouble.host.checkerEnv⟩ before :=
    faithfulMembers_of_plain (SameAs.refl (Ctx.mk withDouble.host.checkerEnv)) (by decide +kernel)
  have hinert : withDouble.host.TypesInert := typesInert_of_forms (by decide +kernel)
  refine ⟨r, l, hr, hl, htwelve, ?_⟩
  unfold withDouble at hfaithful hinert hr hl
  exact execute_access_eq .empty hcalls 50 (by decide) hfaithful hinert hr hl
    (.inl (.inl ⟨12, htwelve⟩))

/-! ### Where a member has another value -/

/-- The normal form of `a` is `\g. \x. \_0. g (\z. _0)`, and that of `b` is `\x. \_0. \z. \_0. _0`:
the last parameter gets the name that was generated for the second one, and captures it. -/
def capturingMembers : List (String × Term) :=
  let int := Term.var "int"
  let unary := Term.arrow int int
  let binary := Term.arrow int unary
  [("a", .typedLam "g" (.arrow unary binary)
      (.app (.typedLam "h" (.arrow int binary) (.typedLam "x" int (.var "h")))
        (.typedLam "x" int (.app (.var "g") (.typedLam "z" int (.var "x")))))),
    ("b", .app (.var "a") (.typedLam "y" unary (.typedLam "z" int (.var "y"))))]

/-- Without faithful normal forms, a member can have another value: `b` returns its fourth parameter
in the record, and its second one in the let bindings. -/
theorem execute_access_ne :
    let c := (Term.var "b").applyAll ([1, 2, 3, 4].map Prelude.int)
    ∃ r l, (execute 20 (.access (.record (Fields.ofList (capturingMembers ++ [("c", c)])))
        "c")).outcome ⟨withPrelude, .empty⟩ = .ok r ∧
      (execute 20 (Term.letAll (capturingMembers ++ [("c", c)]) (.var "c"))).outcome
        ⟨withPrelude, .empty⟩ = .ok l ∧
      r.term = .int 4 ∧ l.term = .int 2 := by
  intro c
  obtain ⟨r, hr, hvalue⟩ := exists_eq_ok_of_any (p := fun r ↦ r.term == .int 4)
    (o := (execute 20 (.access (.record (Fields.ofList (capturingMembers ++ [("c", c)])))
      "c")).outcome ⟨withPrelude, .empty⟩) (by decide +kernel)
  obtain ⟨l, hl, hvalue'⟩ := exists_eq_ok_of_any (p := fun r ↦ r.term == .int 2)
    (o := (execute 20 (Term.letAll (capturingMembers ++ [("c", c)]) (.var "c"))).outcome
      ⟨withPrelude, .empty⟩) (by decide +kernel)
  exact ⟨r, l, hr, hl, Value.eq_int_of_beq hvalue, Value.eq_int_of_beq hvalue'⟩

/-- Let bindings in which `S l` captures the name `l`, since the labels of a record type are not
renamed: with `f`, the member `m` of a record gets another type than it has. -/
def misranking (rank rank' : Nat) : List (String × Term) :=
  let all (name : String) (range : Term) :=
    Term.quant .universal (.type (.univ rank)) (some name) range
  let instanceOfS (name : String) := Term.app (.var "S") (.var name)
  [("S", .typedLam "T" (.univ rank)
      (.signature (Fields.ofList [("l", .univ rank'), ("m", .var "T")]))),
    ("f", .anno (all "l" (.arrow (instanceOfS "l") (instanceOfS "l")))
      (.lam "l" (.lam "r" (.var "r")))),
    ("g", .anno (all "T" (.arrow (instanceOfS "T") (.var "T")))
      (.lam "T" (.lam "r" (.access (.var "r") "m"))))]

/-- A session with a type `d` that computes the number 3, and a function `u` from types to
numbers. -/
def misranked : Progress Session :=
  let type (name : String) (type : Term) := Term.signature (Fields.ofList [(name, type)])
  let record (members : List (String × Term)) := Term.record (Fields.ofList members)
  let d := Term.letAll (misranking 5 0 ++
    [("r", .applyAll (.var "f") [.univ 4, record [("l", type "n" (.var "int")),
        ("m", record [("n", Prelude.int 3)])]]),
      ("coerce", .anno (.quant .universal (.type (.univ 5)) (some "l") (.var "l"))
        (.lam "l" (.applyAll (.var "g") [.var "l", .var "r"])))])
    (.access (.app (.var "coerce") (type "n" (.univ 4))) "n")
  let u := Term.letAll (misranking 0 5 ++
    [("r", .typedLam "x" (.univ 4) (.applyAll (.var "f") [.var "int",
        record [("l", type "k" (.univ 4)), ("m", record [("k", .var "x")])]])),
      ("coerce", .anno (.arrow (.univ 4)
          (.quant .universal (.type (.univ 0)) (some "l") (.var "l")))
        (.lam "x" (.lam "l" (.applyAll (.var "g") [.var "l", .app (.var "r") (.var "x")]))))])
    (.typedLam "x" (.univ 4)
      (.access (.applyAll (.var "coerce") [.var "x", type "k" (.var "int")]) "k"))
  after ⟨withPrelude, .empty⟩ [.define 50 "d" none d, .define 50 "u" none u]

/-- With types that are not inert, a member has a value that the let bindings do not have, although
the normal forms of the members are faithful. -/
theorem execute_access_ne_misranked :
    let before := [("a", Term.app (.var "u") (.var "d"))]
    FaithfulMembers 50 ⟨misranked.host.checkerEnv⟩ before ∧
      ∃ r l, (execute 50 (.access (.record (Fields.ofList (before ++ [("b", .var "a")])))
          "b")).outcome misranked = .ok r ∧
        (execute 50 (Term.letAll (before ++ [("b", .var "a")]) (.var "b"))).outcome misranked =
          .ok l ∧
        r.term = .int 3 ∧ l.term ≠ .int 3 := by
  intro before
  have htest : (plainMembers 50 ⟨misranked.host.checkerEnv⟩ before &&
      (((execute 50 (.access (.record (Fields.ofList (before ++ [("b", .var "a")])))
        "b")).outcome misranked).toOption.any fun r ↦ r.term == .int 3) &&
      ((execute 50 (Term.letAll (before ++ [("b", .var "a")]) (.var "b"))).outcome
        misranked).toOption.any fun l ↦ !(l.term == .int 3)) = true := by
    decide +kernel
  simp only [Bool.and_eq_true] at htest
  obtain ⟨⟨hplain, hrecord⟩, hlets⟩ := htest
  obtain ⟨r, hr, hvalue⟩ := exists_eq_ok_of_any hrecord
  obtain ⟨l, hl, hvalue'⟩ := exists_eq_ok_of_any hlets
  have hfaithful := faithfulMembers_of_plain (SameAs.refl (Ctx.mk misranked.host.checkerEnv)) hplain
  refine ⟨hfaithful, r, l, hr, hl, Value.eq_int_of_beq hvalue, fun heq ↦ ?_⟩
  rw [heq] at hvalue'
  cases hvalue'

end Session

end RankedTT
