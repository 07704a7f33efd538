import Mathlib.Data.Finset.Card

/-!
Loops that go from state to state while a guard holds, with the number of their rounds. A loop whose
guard only holds for states that carry a taken name ends if the states in turn carry different
names: it cannot go round more often than there are names taken.
-/

set_option autoImplicit false
set_option relaxedAutoImplicit false

namespace RankedTT

variable {S : Type} {guard guard' : S → Bool} {next : S → S} {s s' s'' : S} {m n : Nat}

/-- `Loop guard next s n s'`: from the state `s` the loop goes `n` times from a state to the `next`
one, where the guard holds, and it ends at `s'`, where the guard does not hold. -/
inductive Loop (guard : S → Bool) (next : S → S) : S → Nat → S → Prop
  | done {s : S} (h : guard s = false) : Loop guard next s 0 s
  | round {s s' : S} {n : Nat} (h : guard s = true) (hrest : Loop guard next (next s) n s') :
      Loop guard next s (n + 1) s'

namespace Loop

theorem guard_eq_false (h : Loop guard next s n s') : guard s' = false := by
  induction h with
  | done h => exact h
  | round _ _ ih => exact ih

/-- What every round keeps holds at the end. -/
theorem keeps {P : S → Prop} (hnext : ∀ t, P t → P (next t)) (h : Loop guard next s n s')
    (hs : P s) : P s' := by
  induction h with
  | done => exact hs
  | round _ _ ih => exact ih (hnext _ hs)

/-- A loop ends in one way only. -/
theorem unique (h : Loop guard next s m s') (h' : Loop guard next s n s'') :
    m = n ∧ s' = s'' := by
  induction h generalizing n with
  | done h =>
    cases h' with
    | done => exact ⟨rfl, rfl⟩
    | round h' => rw [h] at h'; cases h'
  | round h _ ih =>
    cases h' with
    | done h' => rw [h] at h'; cases h'
    | round _ hrest =>
      obtain ⟨hrounds, hend⟩ := ih hrest
      exact ⟨congrArg (· + 1) hrounds, hend⟩

/-- The guard matters at the states that the loop can come to only. -/
theorem congr {P : S → Prop} (hnext : ∀ t, P t → P (next t))
    (hguard : ∀ t, P t → guard t = guard' t) (h : Loop guard next s n s') (hs : P s) :
    Loop guard' next s n s' := by
  induction h with
  | done h => exact .done (hguard _ hs ▸ h)
  | round h _ ih => exact .round (hguard _ hs ▸ h) (ih (hnext _ hs))

/-- A function that goes round the loop as often as its fuel allows comes to the end of the loop if
that takes no more rounds. -/
theorem eq_of_fuel {run : Nat → S → S} {fuel : Nat} (hzero : ∀ t, run 0 t = t)
    (hsucc : ∀ k t, run (k + 1) t = if guard t then run k (next t) else t)
    (h : Loop guard next s n s') (hn : n ≤ fuel) : run fuel s = s' := by
  induction h generalizing fuel with
  | done h =>
    cases fuel with
    | zero => exact hzero _
    | succ fuel => rw [hsucc, h, if_neg Bool.false_ne_true]
  | round h _ ih =>
    cases fuel with
    | zero => cases hn
    | succ fuel =>
      rw [hsucc, h, if_pos rfl]
      exact ih (Nat.le_of_succ_le_succ hn)

/-- If the guard only holds at taken names, and no name comes twice, then the loop ends, after no
more rounds than there are names taken. -/
theorem exists_of_injective {α : Type} [DecidableEq α] (label : S → α) (taken : Finset α)
    (hinjective : Function.Injective fun i ↦ label (next^[i] s))
    (htaken : ∀ i, guard (next^[i] s) = true → label (next^[i] s) ∈ taken) :
    ∃ n ≤ taken.card, ∃ s', Loop guard next s n s' := by
  induction hcard : taken.card generalizing s taken with
  | zero =>
    cases hs : guard s with
    | false => exact ⟨0, Nat.le_refl 0, s, .done hs⟩
    | true =>
      have hmem : label s ∈ taken := htaken 0 hs
      rw [Finset.card_eq_zero.mp hcard] at hmem
      exact absurd hmem (Finset.notMem_empty _)
  | succ k ih =>
    cases hs : guard s with
    | false => exact ⟨0, Nat.zero_le _, s, .done hs⟩
    | true =>
      have hmem : label s ∈ taken := htaken 0 hs
      -- the name of `s` does not come again, so the later rounds do not need it
      have hlater (i : Nat) (hi : guard (next^[i] (next s)) = true) :
          label (next^[i] (next s)) ∈ taken.erase (label s) := by
        rw [← Function.iterate_succ_apply] at hi ⊢
        refine Finset.mem_erase.mpr ⟨fun heq ↦ ?_, htaken (i + 1) hi⟩
        exact Nat.succ_ne_zero i (hinjective heq)
      have hfewer : (taken.erase (label s)).card = k := by
        rw [Finset.card_erase_of_mem hmem, hcard, Nat.add_sub_cancel]
      obtain ⟨n, hn, s', hloop⟩ :=
        ih _ (fun i j hij ↦ Nat.succ.inj (hinjective hij)) hlater hfewer
      exact ⟨n + 1, Nat.succ_le_succ hn, s', .round hs hloop⟩

end Loop

end RankedTT
