import Mathlib.Data.Nat.Find
import Mathlib.Tactic

/-! A counter that runs from `load` down to zero and starts again, read at instants less
than a period apart. The differences between successive readings add up to the time
that has passed, less one tick for each restart in between. -/

namespace Lib

/-- The counter after `t` ticks. -/
def downValue (load t : ℕ) : ℕ := load - t % (load + 1)

/-- The ticks up to `t` without those at which the counter starts again. -/
def counted (load t : ℕ) : ℕ := load * (t / (load + 1)) + t % (load + 1)

theorem downValue_le (load t : ℕ) : downValue load t ≤ load := Nat.sub_le _ _

theorem counted_add_restarts (load t : ℕ) : counted load t + t / (load + 1) = t := by
  have hdiv := Nat.div_add_mod t (load + 1)
  rw [Nat.succ_mul] at hdiv
  rw [counted]
  omega

/-- Two readings less than a period apart differ, and their difference, taken over the
restart where the value has gone up, is what has been counted between them. -/
theorem downValue_near {load t t' : ℕ} (hlt : t < t') (hnear : t' ≤ t + load) :
    downValue load t' ≠ downValue load t ∧
    counted load t' = counted load t +
      if downValue load t' < downValue load t then downValue load t - downValue load t'
      else load - downValue load t' + downValue load t := by
  have hdiv := Nat.div_add_mod t (load + 1)
  have hdiv' := Nat.div_add_mod t' (load + 1)
  have hmod : t % (load + 1) < load + 1 := Nat.mod_lt t (Nat.succ_pos load)
  have hmod' : t' % (load + 1) < load + 1 := Nat.mod_lt t' (Nat.succ_pos load)
  have hmono : t / (load + 1) ≤ t' / (load + 1) := Nat.div_le_div_right hlt.le
  have hnext : t' / (load + 1) ≤ t / (load + 1) + 1 := by
    rw [← Nat.add_div_right t (Nat.succ_pos load)]
    exact Nat.div_le_div_right (by omega)
  rw [Nat.succ_mul] at hdiv hdiv'
  unfold counted downValue
  rcases hmono.eq_or_lt with hsame | hrestart
  · rw [← hsame] at hdiv' ⊢
    rw [if_pos (by omega)]
    omega
  · have hone : t' / (load + 1) = t / (load + 1) + 1 := by omega
    rw [hone, Nat.mul_succ] at hdiv' ⊢
    rw [if_neg (by omega)]
    omega

theorem counted_le_add (load : ℕ) {t t' gap : ℕ} (hle : t ≤ t') (hgap : t' ≤ t + gap) :
    counted load t ≤ counted load t' ∧ counted load t' ≤ counted load t + gap := by
  have hmono : t / (load + 1) ≤ t' / (load + 1) := Nat.div_le_div_right hle
  have hstep : t' / (load + 1) ≤ t / (load + 1) + (t' - t) := by
    rw [← Nat.add_mul_div_right _ _ (Nat.succ_pos load)]
    apply Nat.div_le_div_right
    have := Nat.le_mul_of_pos_right (t' - t) (Nat.succ_pos load)
    omega
  have hsum := counted_add_restarts load t
  have hsum' := counted_add_restarts load t'
  omega

/-- At least every second tick is counted. -/
theorem le_two_counted {load : ℕ} (hload : 0 < load) (t : ℕ) : t ≤ 2 * counted load t := by
  have hsum := counted_add_restarts load t
  have hhalf : t / (load + 1) ≤ t / 2 := Nat.div_le_div_left (by omega) (by omega)
  omega

/-- Instants of reading, each later than the one before by at most `gap`. -/
structure Schedule (gap : ℕ) (t : ℕ → ℕ) : Prop where
  lt_succ : ∀ k, t k < t (k + 1)
  succ_le : ∀ k, t (k + 1) ≤ t k + gap

/-- What has been counted, and the restarts, since the first reading. -/
def countedSince (load : ℕ) (t : ℕ → ℕ) (k : ℕ) : ℕ := counted load (t k) - counted load (t 0)

def restarts (load : ℕ) (t : ℕ → ℕ) (k : ℕ) : ℕ := t k / (load + 1) - t 0 / (load + 1)

namespace Schedule

variable {gap load : ℕ} {t : ℕ → ℕ}

theorem mono (h : Schedule gap t) {j k : ℕ} (hjk : j ≤ k) : t j ≤ t k :=
  monotone_nat_of_le_succ (fun k => (h.lt_succ k).le) hjk

theorem add_le (h : Schedule gap t) (k : ℕ) : t 0 + k ≤ t k := by
  induction k with
  | zero => exact le_rfl
  | succ k ih =>
    have := h.lt_succ k
    omega

/-- Counted ticks and restarts together are the time since the first reading. -/
theorem countedSince_add (h : Schedule gap t) (load k : ℕ) :
    countedSince load t k + restarts load t k = t k - t 0 := by
  have hmono := h.mono (Nat.zero_le k)
  have hcount := (counted_le_add load hmono (Nat.le_add_left (t k) (t 0))).1
  have hdiv : t 0 / (load + 1) ≤ t k / (load + 1) := Nat.div_le_div_right hmono
  have hsum := counted_add_restarts load (t k)
  have hsum₀ := counted_add_restarts load (t 0)
  unfold countedSince restarts
  omega

theorem countedSince_succ (h : Schedule gap t) (load k : ℕ) :
    countedSince load t k ≤ countedSince load t (k + 1) ∧
      countedSince load t (k + 1) ≤ countedSince load t k + gap := by
  have hstep := counted_le_add load (h.lt_succ k).le (h.succ_le k)
  have hmono := (counted_le_add load (h.mono (Nat.zero_le k)) (Nat.le_add_left (t k) (t 0))).1
  unfold countedSince
  omega

/-- Some reading is the first one at which a given number of ticks has been counted. -/
theorem exists_first (h : Schedule gap t) (hload : 0 < load) (ticks : ℕ) :
    ∃ K, 1 ≤ K ∧ ticks ≤ countedSince load t K ∧
      ∀ k, 1 ≤ k → k < K → countedSince load t k < ticks := by
  have hex : ∃ K, 1 ≤ K ∧ ticks ≤ countedSince load t K := by
    refine ⟨2 * (ticks + counted load (t 0)) + 1, by omega, ?_⟩
    have hlate := h.add_le (2 * (ticks + counted load (t 0)) + 1)
    have hhalf := le_two_counted hload (t (2 * (ticks + counted load (t 0)) + 1))
    unfold countedSince
    omega
  refine ⟨Nat.find hex, (Nat.find_spec hex).1, (Nat.find_spec hex).2, fun k hk hlt => ?_⟩
  by_contra hge
  exact Nat.find_min hex hlt ⟨hk, Nat.le_of_not_lt hge⟩

end Schedule

end Lib
