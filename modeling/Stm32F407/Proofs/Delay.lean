import Stm32F407.Spec.Delay

/-! How long `delay_us` waits. As long as it reads SysTick at least once a period, `tcnt`
is the time since the first read less the reloads since then; so a delay is never
short, unless the computation of its target has wrapped. -/

namespace Stm32F407

open Lib

theorem sysTickVal_toNat (load : U32) (t : ℕ) :
    (sysTickVal load t).toNat = downValue load.toNat t := by
  have hle := downValue_le load.toNat t
  have hlt := load.isLt
  rw [sysTickVal, BitVec.toNat_ofNat, Nat.mod_eq_of_lt (by omega)]

/-- What a round adds to `tcnt`. -/
theorem sysTickVal_diff {load : U32} {t t' : ℕ} (hlt : t < t') (hnear : t' ≤ t + load.toNat) :
    sysTickVal load t' ≠ sysTickVal load t ∧
    (if sysTickVal load t' < sysTickVal load t then sysTickVal load t - sysTickVal load t'
      else load - sysTickVal load t' + sysTickVal load t) =
      BitVec.ofNat 32 (counted load.toNat t' - counted load.toNat t) := by
  obtain ⟨hne, hcount⟩ := downValue_near hlt hnear
  have hle := downValue_le load.toNat t'
  constructor
  · rw [← sysTickVal_toNat, ← sysTickVal_toNat load t] at hne
    exact fun heq => hne (congrArg BitVec.toNat heq)
  · rw [hcount, Nat.add_sub_cancel_left]
    apply BitVec.eq_of_toNat_eq
    simp only [BitVec.lt_def, sysTickVal_toNat]
    split_ifs with hdown
    · have hsub : sysTickVal load t' ≤ sysTickVal load t := by
        rw [BitVec.le_def, sysTickVal_toNat, sysTickVal_toNat]
        exact hdown.le
      have hlt := load.isLt
      have hle₀ := downValue_le load.toNat t
      rw [BitVec.toNat_sub_of_le hsub, sysTickVal_toNat, sysTickVal_toNat, BitVec.toNat_ofNat,
        Nat.mod_eq_of_lt (by omega)]
    · have hsub : sysTickVal load t' ≤ load := by
        rw [BitVec.le_def, sysTickVal_toNat]
        exact hle
      rw [BitVec.toNat_add, BitVec.toNat_sub_of_le hsub, sysTickVal_toNat, sysTickVal_toNat,
        BitVec.toNat_ofNat]

theorem round_eq {load : U32} (ticks : U32) {t t' : ℕ} (n : ℕ) (hlt : t < t') (hnear : t' ≤ t + load.toNat) :
    (DelayLoop.mk (sysTickVal load t) (BitVec.ofNat 32 n) false).round load ticks (sysTickVal load t') =
      ⟨sysTickVal load t', BitVec.ofNat 32 (n + (counted load.toNat t' - counted load.toNat t)),
        decide (ticks ≤ BitVec.ofNat 32 (n + (counted load.toNat t' - counted load.toNat t)))⟩ := by
  obtain ⟨hne, hdiff⟩ := sysTickVal_diff hlt hnear
  have hadd : (if sysTickVal load t' < sysTickVal load t then
        BitVec.ofNat 32 n + (sysTickVal load t - sysTickVal load t')
      else BitVec.ofNat 32 n + (load - sysTickVal load t' + sysTickVal load t)) =
      BitVec.ofNat 32 (n + (counted load.toNat t' - counted load.toNat t)) := by
    rw [BitVec.ofNat_add, ← hdiff]
    split_ifs <;> rfl
  simp only [DelayLoop.round, if_pos hne, hadd]
  rfl

def delayAt (c : DelayConfig) (nus : U32) (t : ℕ → ℕ) : ℕ → DelayLoop :=
  delayUs c nus fun k => sysTickVal c.load (t k)

def ticksFor (c : DelayConfig) (nus : U32) : U32 := nus * c.facUs.setWidth 32

variable {c : DelayConfig} {nus : U32} {t : ℕ → ℕ} {gap : ℕ}

/-- The loop before round `k + 1`, if that is reached: `tcnt` is the count up to read `k`. -/
def loopAt (c : DelayConfig) (t : ℕ → ℕ) (k : ℕ) : DelayLoop :=
  ⟨sysTickVal c.load (t k), BitVec.ofNat 32 (countedSince c.load.toNat t k), false⟩

theorem delayAt_zero (c : DelayConfig) (nus : U32) (t : ℕ → ℕ) : delayAt c nus t 0 = loopAt c t 0 := by
  simp only [loopAt, countedSince, Nat.sub_self]
  rfl

/-- A round that is reached takes the count to the next reading and compares it. -/
theorem delayAt_succ (h : Schedule c.load.toNat t) {k : ℕ} (hk : delayAt c nus t k = loopAt c t k) :
    delayAt c nus t (k + 1) =
      { loopAt c t (k + 1) with done := decide (ticksFor c nus ≤ (loopAt c t (k + 1)).tcnt) } := by
  have hsum : countedSince c.load.toNat t k +
      (counted c.load.toNat (t (k + 1)) - counted c.load.toNat (t k)) =
      countedSince c.load.toNat t (k + 1) := by
    have hstep := (counted_le_add c.load.toNat (h.lt_succ k).le (h.succ_le k)).1
    have hmono := (counted_le_add c.load.toNat (h.mono (Nat.zero_le k))
      (Nat.le_add_left (t k) (t 0))).1
    unfold countedSince
    omega
  have hround := round_eq (ticksFor c nus) (countedSince c.load.toNat t k) (h.lt_succ k) (h.succ_le k)
  have hloop : delayAt c nus t k = DelayLoop.mk (sysTickVal c.load (t k))
      (BitVec.ofNat 32 (countedSince c.load.toNat t k)) false := hk
  rw [← hloop, hsum] at hround
  exact hround

/-- The counter follows the count until this first reaches the target. -/
theorem delayAt_before (h : Schedule c.load.toNat t) {k : ℕ}
    (hbefore : ∀ j, 1 ≤ j → j ≤ k → countedSince c.load.toNat t j < (ticksFor c nus).toNat) :
    delayAt c nus t k = loopAt c t k := by
  induction k with
  | zero => exact delayAt_zero c nus t
  | succ k ih =>
    have hlt := hbefore (k + 1) (by omega) le_rfl
    have hticks := (ticksFor c nus).isLt
    have hnot : ¬ticksFor c nus ≤ (loopAt c t (k + 1)).tcnt := by
      rw [loopAt, BitVec.le_def, BitVec.toNat_ofNat, Nat.mod_eq_of_lt (by omega)]
      omega
    rw [delayAt_succ h (ih fun j h1 h2 => hbefore j h1 (by omega)), decide_eq_false hnot]
    rfl

/-- Reading at intervals of at most `gap`, the counter does not wrap, and the loop ends where
the count first reaches the target. -/
theorem delayAt_first (h : Schedule c.load.toNat t) (hgap : Schedule gap t)
    (hfit : (ticksFor c nus).toNat + gap ≤ 2 ^ 32) (hlt : gap < 2 ^ 32) {K : ℕ} (hK : 1 ≤ K)
    (hreach : (ticksFor c nus).toNat ≤ countedSince c.load.toNat t K)
    (hbefore : ∀ k, 1 ≤ k → k < K → countedSince c.load.toNat t k < (ticksFor c nus).toNat) :
    (∀ k ≤ K, (delayAt c nus t k).tcnt.toNat = countedSince c.load.toNat t k) ∧
      (∀ k < K, (delayAt c nus t k).done = false) ∧ (delayAt c nus t K).done = true := by
  have hloop : ∀ k < K, delayAt c nus t k = loopAt c t k :=
    fun k hk => delayAt_before h fun j h1 h2 => hbefore j h1 (by omega)
  have hticks := (ticksFor c nus).isLt
  have hzero : countedSince c.load.toNat t 0 = 0 := Nat.sub_self _
  have hsmall : ∀ k < K, countedSince c.load.toNat t k + gap < 2 ^ 32 := by
    intro k hk
    rcases Nat.eq_zero_or_pos k with rfl | hpos
    · rw [hzero]
      omega
    · have := hbefore k hpos hk
      omega
  obtain ⟨K, rfl⟩ : ∃ j, K = j + 1 := ⟨K - 1, by omega⟩
  have hlast := delayAt_succ h (hloop K (Nat.lt_succ_self K))
  have hstep := (hgap.countedSince_succ c.load.toNat K).2
  have hroom := hsmall K (Nat.lt_succ_self K)
  refine ⟨fun k hk => ?_, fun k hk => by rw [hloop k hk, loopAt], ?_⟩
  · rcases Nat.lt_or_eq_of_le hk with hlt | rfl
    · have := hsmall k hlt
      rw [hloop k hlt, loopAt, BitVec.toNat_ofNat, Nat.mod_eq_of_lt (by omega)]
    · rw [hlast, loopAt, BitVec.toNat_ofNat, Nat.mod_eq_of_lt (by omega)]
  · rw [hlast, decide_eq_true_eq, loopAt, BitVec.le_def, BitVec.toNat_ofNat, Nat.mod_eq_of_lt (by omega)]
    exact hreach

theorem ticksFor_toNat (c : DelayConfig) (nus : U32) :
    (ticksFor c nus).toNat = nus.toNat * c.facUs.toNat % 2 ^ 32 := by
  have hfac : (c.facUs.setWidth 32).toNat = c.facUs.toNat := by
    have := c.facUs.isLt
    rw [BitVec.toNat_setWidth]
    omega
  rw [ticksFor, BitVec.toNat_mul, hfac]

/-- `delay_us` with a target that leaves room for one more period: up to the read at which it
returns, `tcnt` is the time since the first read less the reloads since then, and that
read is the first one at which this reaches the target. -/
theorem delayUs_exact (c : DelayConfig) (nus : U32) (t : ℕ → ℕ) (hload : 0 < c.load.toNat)
    (h : Schedule c.load.toNat t) (hfit : nus.toNat * c.facUs.toNat + c.load.toNat < 2 ^ 32) :
    ∃ K, 1 ≤ K ∧
      (∀ k ≤ K, (delayAt c nus t k).tcnt.toNat + restarts c.load.toNat t k = t k - t 0) ∧
      (∀ k < K, (delayAt c nus t k).done = false) ∧ (delayAt c nus t K).done = true ∧
      nus.toNat * c.facUs.toNat ≤ t K - t 0 ∧
      nus.toNat * c.facUs.toNat ≤ t K - t 0 - restarts c.load.toNat t K ∧
      ∀ k, 1 ≤ k → k < K → t k - t 0 - restarts c.load.toNat t k < nus.toNat * c.facUs.toNat := by
  have hticks : (ticksFor c nus).toNat = nus.toNat * c.facUs.toNat := by
    rw [ticksFor_toNat, Nat.mod_eq_of_lt (by omega)]
  have hsince : ∀ k, t k - t 0 - restarts c.load.toNat t k = countedSince c.load.toNat t k := by
    intro k
    rw [← h.countedSince_add c.load.toNat k, Nat.add_sub_cancel]
  obtain ⟨K, hK, hreach, hbefore⟩ := h.exists_first hload (ticksFor c nus).toNat
  obtain ⟨hcnt, hloop, hdone⟩ := delayAt_first h h (by omega) (by omega) hK hreach hbefore
  rw [hticks] at hreach
  refine ⟨K, hK, fun k hk => ?_, hloop, hdone, ?_, ?_, fun k h1 hk => ?_⟩
  · rw [hcnt k hk, h.countedSince_add]
  · have := h.countedSince_add c.load.toNat K
    omega
  · rwa [hsince]
  · rw [hsince, ← hticks]
    exact hbefore k h1 hk

/-- One microsecond at 168 MHz, read every hundred ticks: the second read in the loop is the
first one at 168 ticks or more. -/
theorem delayUs_exact_one :
    ∃ K, (delayAt (delayInit 168) 1 (fun k => 100 * k) K).done = true ∧ 168 ≤ 100 * K - 100 * 0 := by
  obtain ⟨K, -, -, -, hdone, hlate, -⟩ := delayUs_exact (delayInit 168) 1 (fun k => 100 * k) (by decide)
    ⟨fun k => by omega, fun k => by
      have hload : (delayInit 168).load.toNat = 168000 := by decide
      omega⟩ (by decide)
  exact ⟨K, hdone, hlate⟩

/-- When the loop is left, a read up to then has found the target reached, wrapped or not. -/
theorem delayAt_done (h : Schedule c.load.toNat t) {K : ℕ} (hdone : (delayAt c nus t K).done = true) :
    ∃ j ≤ K, (ticksFor c nus).toNat ≤ countedSince c.load.toNat t j := by
  have hrun : ∀ k, delayAt c nus t k = loopAt c t k ∨
      ∃ j ≤ k, (ticksFor c nus).toNat ≤ countedSince c.load.toNat t j := by
    intro k
    induction k with
    | zero => exact Or.inl (delayAt_zero c nus t)
    | succ k ih =>
      rcases ih with hk | ⟨j, hj, hreach⟩
      · rw [delayAt_succ h hk]
        by_cases hle : ticksFor c nus ≤ (loopAt c t (k + 1)).tcnt
        · rw [loopAt, BitVec.le_def, BitVec.toNat_ofNat] at hle
          exact Or.inr ⟨k + 1, le_rfl, hle.trans (Nat.mod_le _ _)⟩
        · refine Or.inl ?_
          rw [decide_eq_false hle]
          rfl
      · exact Or.inr ⟨j, by omega, hreach⟩
  rcases hrun K with hK | hreach
  · rw [hK] at hdone
    exact absurd hdone Bool.false_ne_true
  · exact hreach

/-- `delay_us` never returns before `ticks` ticks have passed, however it reads SysTick. -/
def NeverEarly (c : DelayConfig) (nus : U32) (ticks : ℕ) : Prop :=
  ∀ t, Schedule c.load.toNat t → ∀ K, (delayAt c nus t K).done = true → ticks ≤ t K - t 0

/-- Reading at every tick, a target that has wrapped is reached early. -/
theorem exists_early {ticks : ℕ} (hload : 0 < c.load.toNat)
    (hticks : (ticksFor c nus).toNat = ticks % 2 ^ 32) (hwrap : 2 ^ 32 ≤ ticks) :
    ¬NeverEarly c nus ticks := by
  intro hnever
  have hevery : Schedule 1 fun k => k := ⟨fun k => Nat.lt_succ_self k, fun k => le_rfl⟩
  have hs : Schedule c.load.toNat fun k => k :=
    ⟨fun k => Nat.lt_succ_self k, fun k => Nat.add_le_add_left hload k⟩
  obtain ⟨K, hK, hreach, hbefore⟩ := hs.exists_first hload (ticksFor c nus).toNat
  have hlt := (ticksFor c nus).isLt
  have hdone := (delayAt_first hs hevery (by omega) (by decide) hK hreach hbefore).2.2
  have hlate : ticks ≤ K := hnever _ hs K hdone
  have hhalf : K ≤ 2 * countedSince c.load.toNat (fun k => k) K := by
    have hzero : counted c.load.toNat 0 = 0 := by simp [counted]
    rw [countedSince, hzero]
    exact le_two_counted hload K
  obtain ⟨K, rfl⟩ : ∃ j, K = j + 1 := ⟨K - 1, by omega⟩
  have hstep := (hevery.countedSince_succ c.load.toNat K).2
  rcases Nat.eq_zero_or_pos K with rfl | hpos
  · omega
  · have := hbefore K hpos (Nat.lt_succ_self K)
    omega

/-- The wait is never short exactly when the target fits into 32 bits. -/
theorem neverEarly_iff {ticks : ℕ} (hload : 0 < c.load.toNat)
    (hticks : (ticksFor c nus).toNat = ticks % 2 ^ 32) : NeverEarly c nus ticks ↔ ticks < 2 ^ 32 := by
  constructor
  · intro hnever
    by_contra hwrap
    exact exists_early hload hticks (Nat.le_of_not_lt hwrap) hnever
  · intro hfit t h K hdone
    obtain ⟨j, hj, hreach⟩ := delayAt_done h hdone
    have hsum := h.countedSince_add c.load.toNat j
    have hmono := h.mono hj
    rw [hticks, Nat.mod_eq_of_lt hfit] at hreach
    omega

/-- A delay of `ticks` ticks asked for by `nus`: the target does not wrap, and the wait is
never short. -/
structure Honoured (c : DelayConfig) (nus : U32) (ticks : ℕ) : Prop where
  target : (ticksFor c nus).toNat = ticks
  neverEarly : NeverEarly c nus ticks

theorem honoured_iff {ticks : ℕ} (hload : 0 < c.load.toNat)
    (hticks : (ticksFor c nus).toNat = ticks % 2 ^ 32) : Honoured c nus ticks ↔ ticks < 2 ^ 32 := by
  constructor
  · intro h
    exact (neverEarly_iff hload hticks).mp h.neverEarly
  · intro hfit
    exact ⟨hticks.trans (Nat.mod_eq_of_lt hfit), (neverEarly_iff hload hticks).mpr hfit⟩

/-- After `delay_init(168)`, `delay_us` honours exactly the delays up to 25565281 µs, and
`delay_ms` before the scheduler runs exactly those up to 25565 ms. -/
theorem delay_honoured_iff (nus nms : U32) :
    (Honoured (delayInit 168) nus (nus.toNat * 168) ↔ nus.toNat ≤ 25565281) ∧
    (Honoured (delayInit 168) (delayMs (delayInit 168) false nms).2 (nms.toNat * 1000 * 168) ↔
      nms.toNat ≤ 25565) := by
  have hload : 0 < (delayInit 168).load.toNat := by decide
  have hfac : (delayInit 168).facUs.toNat = 168 := by decide
  constructor
  · rw [honoured_iff hload (by rw [ticksFor_toNat, hfac])]
    omega
  · have harg : (delayMs (delayInit 168) false nms).2 = nms * 1000 := rfl
    have hmul : (nms * 1000).toNat = nms.toNat * 1000 % 2 ^ 32 := by
      rw [BitVec.toNat_mul]
      rfl
    rw [harg, honoured_iff hload (by rw [ticksFor_toNat, hfac, hmul, Nat.mod_mul_mod])]
    omega

/-- A delay of 25565282 µs has a target of 80 ticks. -/
theorem delay_not_honoured :
    ¬ ∀ nus : U32, nus.toNat ≤ 204522252 → Honoured (delayInit 168) nus (nus.toNat * 168) := by
  intro hall
  have htarget := (hall 25565282 (by decide)).target
  exact absurd htarget (by decide)

end Stm32F407
