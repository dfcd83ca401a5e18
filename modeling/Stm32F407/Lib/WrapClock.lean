import Mathlib.Tactic

/-! A clock that counts modulo `M`, and deadlines kept modulo `M` in two lists: one for
the current lap of the clock and one for the next. A deadline less than a lap away is
kept so, comes due exactly when the clock shows its value in the list of the current
lap, and stays kept while the clock goes on; when the clock wraps the list of the next
lap becomes that of the current one. -/

namespace Lib

/-- At `now`, the deadline `w` is kept as the value `v`, in the list of the next lap if
`late`. -/
structure Kept (M now w v : ℕ) (late : Bool) : Prop where
  future : now < w
  value : v < M
  eq : w = v + M * (now / M + late.toNat)

namespace Kept

variable {M now w v d : ℕ} {late : Bool}

theorem lap_eq (hwrap : (now + 1) % M ≠ 0) : (now + 1) / M = now / M :=
  Nat.succ_div_of_not_dvd fun hdvd => hwrap (Nat.mod_eq_zero_of_dvd hdvd)

theorem lap_succ (hwrap : (now + 1) % M = 0) : (now + 1) / M = now / M + 1 :=
  Nat.succ_div_of_dvd (Nat.dvd_of_mod_eq_zero hwrap)

/-- A deadline `d` from now is kept as the sum, with the next lap if the sum wraps. -/
theorem of_delay (hd : 0 < d) (hlt : d < M) :
    Kept M now (now + d) ((now % M + d) % M) (decide ((now % M + d) % M < now % M)) := by
  have hdiv := Nat.div_add_mod now M
  have hmod := Nat.mod_lt now (show 0 < M by omega)
  refine ⟨by omega, Nat.mod_lt _ (by omega), ?_⟩
  by_cases hsum : now % M + d < M
  · rw [Nat.mod_eq_of_lt hsum, decide_eq_false (by omega), Bool.toNat_false, Nat.add_zero]
    omega
  · have hval : (now % M + d) % M = now % M + d - M := by
      rw [Nat.mod_eq_sub_mod (by omega), Nat.mod_eq_of_lt (by omega)]
    rw [hval, decide_eq_true (by omega), Bool.toNat_true, Nat.mul_add, Nat.mul_one]
    omega

/-- In the current lap a deadline is due when its value is reached. -/
theorem due_iff (h : Kept M now w v false) (hwrap : (now + 1) % M ≠ 0) :
    v ≤ (now + 1) % M ↔ w ≤ now + 1 := by
  have heq := h.eq
  have hdiv := Nat.div_add_mod (now + 1) M
  have hvalue := h.value
  rw [lap_eq hwrap] at hdiv
  rw [Bool.toNat_false, Nat.add_zero] at heq
  omega

theorem not_due (h : Kept M now w v true) (hwrap : (now + 1) % M ≠ 0) : now + 1 < w := by
  have heq := h.eq
  have hvalue := h.value
  have hM : 0 < M := by omega
  have hdiv := Nat.div_add_mod (now + 1) M
  have hmod := Nat.mod_lt (now + 1) hM
  rw [lap_eq hwrap] at hdiv
  rw [Bool.toNat_true, Nat.mul_add, Nat.mul_one] at heq
  omega

theorem next (h : Kept M now w v late) (hwrap : (now + 1) % M ≠ 0) (hlt : now + 1 < w) :
    Kept M (now + 1) w v late := by
  refine ⟨hlt, h.value, ?_⟩
  have hM : 0 < M := Nat.zero_lt_of_lt h.value
  rw [lap_eq hwrap]
  exact h.eq

/-- Before the clock wraps everything of the current lap has come due. -/
theorem not_wrap (h : Kept M now w v false) : (now + 1) % M ≠ 0 := by
  intro hwrap
  have hfuture := h.future
  have heq := h.eq
  have hvalue := h.value
  have hdiv := Nat.div_add_mod (now + 1) M
  rw [lap_succ hwrap, hwrap, Nat.mul_add, Nat.mul_one] at hdiv
  rw [Bool.toNat_false, Nat.add_zero] at heq
  omega

theorem wrap_due_iff (h : Kept M now w v true) (hwrap : (now + 1) % M = 0) :
    v ≤ 0 ↔ w ≤ now + 1 := by
  have heq := h.eq
  have hdiv := Nat.div_add_mod (now + 1) M
  rw [lap_succ hwrap, hwrap] at hdiv
  rw [Bool.toNat_true] at heq
  omega

theorem wrap (h : Kept M now w v true) (hwrap : (now + 1) % M = 0) (hlt : now + 1 < w) :
    Kept M (now + 1) w v false := by
  refine ⟨hlt, h.value, ?_⟩
  rw [lap_succ hwrap]
  exact h.eq

end Kept

end Lib
