import Stm32F407.Lib.Cells

/-! Polling with a bound: a reading is taken again as long as it asks for that, until
the tries are used up. The readings are a list, so that what the last one was can be
asked for. -/

namespace Lib

variable {α : Type*} {again : α → Prop} [DecidablePred again] {read : ℕ → α} {n k : ℕ}

/-- The readings taken in at most `n` tries, and whether all of them asked for another. -/
def poll (again : α → Prop) [DecidablePred again] (read : ℕ → α) : ℕ → List α × Bool
  | 0 => ([], true)
  | n + 1 =>
      if again (read 0) then
        let rest := poll again (fun i => read (i + 1)) n
        (read 0 :: rest.1, rest.2)
      else ([read 0], false)

theorem poll_exhausted (h : ∀ j < n, again (read j)) : poll again read n = (slice read 0 n, true) := by
  induction n generalizing read with
  | zero => rfl
  | succ n ih =>
    have hrest : poll again (fun i => read (i + 1)) n = (slice (fun i => read (i + 1)) 0 n, true) :=
      ih fun j hj => h (j + 1) (by omega)
    rw [poll, if_pos (h 0 (by omega)), hrest, slice_shift, slice_succ' read 0]

theorem poll_stops (hk : k < n) (hbefore : ∀ j < k, again (read j)) (hstop : ¬again (read k)) :
    poll again read n = (slice read 0 (k + 1), false) := by
  induction k generalizing n read with
  | zero =>
    obtain ⟨n, rfl⟩ : ∃ m, n = m + 1 := ⟨n - 1, by omega⟩
    rw [poll, if_neg hstop]
    rfl
  | succ k ih =>
    obtain ⟨n, rfl⟩ : ∃ m, n = m + 1 := ⟨n - 1, by omega⟩
    have hrest : poll again (fun i => read (i + 1)) n =
        (slice (fun i => read (i + 1)) 0 (k + 1), false) :=
      ih (by omega) (fun j hj => hbefore (j + 1) (by omega)) hstop
    rw [poll, if_pos (hbefore 0 (by omega)), hrest, slice_shift, slice_succ' read 0]

/-- Polling ends at the first reading that does not ask for another, or after all tries. -/
theorem poll_cases (again : α → Prop) [DecidablePred again] (read : ℕ → α) (n : ℕ) :
    (∀ j < n, again (read j)) ∨ ∃ k < n, (∀ j < k, again (read j)) ∧ ¬again (read k) := by
  induction n with
  | zero => exact Or.inl fun j hj => absurd hj (Nat.not_lt_zero j)
  | succ n ih =>
    rcases ih with hall | ⟨k, hk, hbefore, hstop⟩
    · by_cases hn : again (read n)
      · refine Or.inl fun j hj => ?_
        rcases Nat.lt_succ_iff_lt_or_eq.mp hj with hlt | rfl
        · exact hall j hlt
        · exact hn
      · exact Or.inr ⟨n, Nat.lt_succ_self n, hall, hn⟩
    · exact Or.inr ⟨k, by omega, hbefore, hstop⟩

end Lib
