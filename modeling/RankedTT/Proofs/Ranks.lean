import RankedTT.Proofs.Safety

/-!
Ranks of accepted programs. A judgement carries the rank of its type in a field of its own, which
every rule computes anew while the type itself changes by substitution and normalization. As
universes are not cumulative in the type system and reduction preserves types, a sound judgement
whose type reduces to a universe has recorded the rank after it.

Elaboration is sound only if its moves are hygienic. A label that captures the name put in below it
gives a type another rank than its declaration records, and a program can end in it.
-/

set_option autoImplicit false
set_option relaxedAutoImplicit false

namespace RankedTT

open Nameless

/-- A type that reduces to a universe has the rank after it. -/
theorem Classified.Typed.rank_eq {judgement : Classified Core} {τ : Ref → Nameless} {Γ : Assignment}
    (h : judgement.Typed τ Γ) {k : Nat} (hsteps : Reduces (judgement.type.meaning τ) (.univ k)) :
    judgement.rank = k + 1 :=
  (h.ranked.reduces hsteps).univ_inv.univ_inj.symm

/-- What is inferred by hygienic moves records the right rank, in every context that has an
interpretation. -/
theorem Infers.rank_eq {moves : List Move} {ctx : Ctx} {t : Term} {found : Classified Core}
    {τ : Ref → Nameless} {Γ : Assignment} {k : Nat} (h : Infers moves ctx t found)
    (hm : ∀ m ∈ moves, m.Hygienic) (hctx : ctx.Interprets τ Γ)
    (hnormal : (Move.normalize ctx found.type (.univ k)).Hygienic) : found.rank = k + 1 :=
  (h.sound hm hctx).rank_eq (hnormal.reduces hctx.resolves)

/-- What an accepted program is elaborated to can be derived with moves that were computed. If it
can be derived with moves that are hygienic, its rank is the right one: if its type normalizes to a
universe, capturing nothing, then the rank is the one after it. -/
theorem Term.accepted_rank {σ κ : Type} (host : Host σ κ) {p : Term}
    (hp : ∀ m ∈ p.mentions, m.IsLiteral) {state : Progress σ} {c : Classified Core}
    (h : (checkProgram host Prelude.checkerEnv p).outcome state = .ok c) :
    Derivable (Move.Computed host.fuel) (Infers · Prelude.ctx p c) ∧
      (Derivable Move.Hygienic (Infers · Prelude.ctx p c) →
        (Call.core Prelude.ctx.values c.type 0).CaptureFree →
          ∀ fuel k, c.type.normalForm fuel Prelude.ctx.values = .ok (.univ k) →
            c.rank = k + 1) := by
  refine ⟨Term.derivable_of_checkProgram hp h, fun ⟨moves, hinfers, hm⟩ hfree fuel k hk ↦ ?_⟩
  have hnormal : (Move.normalize Prelude.ctx c.type (.univ k)).Computed fuel := ⟨_, hk, rfl⟩
  exact hinfers.rank_eq hm Prelude.interprets (hnormal.hygienic hfree)

/-- The record type with a member of `Type5` and another one of that type. -/
theorem Term.accepted_rank_signature :
    let p : Term := .signature (.cons "l" (.univ 5) (.cons "m" (.var "l") .nil))
    ∃ c, (checkProgram (Host.withoutImports 20) Prelude.checkerEnv p).outcome ⟨(), .empty⟩ = .ok c ∧
      c.type.normalForm 20 Prelude.ctx.values = .ok (.univ 6) ∧
      ∀ fuel k, c.type.normalForm fuel Prelude.ctx.values = .ok (.univ k) → c.rank = k + 1 := by
  intro p
  let c : Classified Core := ⟨7, .univ 6,
    .signature (.cons 6 (.univ 5) "l" (.cons 5 (.var "l") "m" .nil))⟩
  have haccepted : (checkProgram (Host.withoutImports 20) Prelude.checkerEnv p).outcome
      ⟨(), .empty⟩ = .ok c := by
    cbv
  have hp : ∀ m ∈ p.mentions, m.IsLiteral := by
    intro m hm
    simp only [p, Term.mentions, Fields.mentions, List.cons_append, List.nil_append, List.mem_cons,
      List.not_mem_nil, or_false] at hm
    rcases hm with rfl | rfl | rfl <;> trivial
  have hmoves : Derivable Move.Hygienic (Infers · Prelude.ctx p c) := by
    refine ⟨_, .signature (.cons rfl (.mk (.univ 5)) (.cons rfl (.mk (.var rfl)) .nil) :
      InfersTelescope _ _ _ (max 6 (max 5 0)) _), ?_⟩
    have hl : "l" ≠ anonymous := by decide
    have hm : "m" ≠ anonymous := by decide
    simp only [List.forall_mem_append, List.forall_mem_cons]
    exact ⟨⟨⟨by simp, .refl, .refl, by simp⟩, ⟨⟨by simp, .refl, .refl, by simp⟩, by simp⟩, hm,
      by simp⟩, hl, by simp⟩
  have hrank := (Term.accepted_rank _ hp haccepted).2 hmoves
    (Core.Plain.captureFree (.of_names (by decide)))
  exact ⟨c, haccepted, rfl, hrank⟩

theorem Classified.term_of_asUniverse? {judgement : Classified Core} {rank : Nat}
    (h : judgement.asUniverse? = some rank) : judgement.term = .univ rank := by
  unfold asUniverse? at h
  split at h
  · rename_i hterm
    rw [hterm, Option.some.inj h]
  · cases h

/-- `S l` captures the parameter `l`, since the labels of a record type are not renamed: its member
`m` is declared with the rank of a base type, and it is one of the types that `l` ranges over. -/
def Term.misranked : Term :=
  let S := Term.typedLam "T" (.univ 0)
    (.signature (.cons "l" (.univ 5) (.cons "m" (.var "T") .nil)))
  let instanceOfS := Term.app (.var "S") (.var "l")
  let f := Term.anno (.quant .universal .unbounded (some "l") (.arrow instanceOfS instanceOfS))
    (.lam "l" (.lam "r" (.var "r")))
  let r0 := Term.record (.cons "l" (.univ 4) (.cons "m" (.univ 3) .nil))
  .letIn "S" S (.letIn "f" f (.access (.app (.app (.var "f") (.var "int")) r0) "m"))

/-- Not every accepted program has the right rank: `misranked` has the type `Type4` and the rank of
a value of a base type. -/
theorem Term.accepted_misranked :
    ∃ c, (checkProgram (Host.withoutImports 50) Prelude.checkerEnv Term.misranked).outcome
        ⟨(), .empty⟩ = .ok c ∧
      c.type.normalForm 50 Prelude.ctx.values = .ok (.univ 4) ∧ c.rank = 0 := by
  have hrun : ((checkProgram (Host.withoutImports 50) Prelude.checkerEnv
      Term.misranked).outcome ⟨(), .empty⟩).toOption.any (fun c ↦
        c.typeOf.asUniverse? == some 4 && c.rank == 0) = true := by
    decide +kernel
  obtain ⟨c, hc, htest⟩ := Run.exists_eq_ok_of_any hrun
  rw [Bool.and_eq_true, beq_iff_eq, beq_iff_eq] at htest
  have htype : c.type = .univ 4 := Classified.term_of_asUniverse? htest.1
  refine ⟨c, hc, ?_, htest.2⟩
  rw [htype]
  rfl

end RankedTT
