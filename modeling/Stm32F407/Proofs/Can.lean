import Stm32F407.Spec.Can

/-! What the CAN send functions report. The polling ends at the first status that is not
Failed, and then the function returns 0, though that status may be Pending. -/

namespace Stm32F407

open Lib

/-- `CAN_Transmit` finds mailbox `m` empty, and none before it. -/
def FirstEmpty (tsr : ℕ → U32) (m : ℕ) : Prop :=
  (m = 0 ∧ tsr 0 &&& canTsr0.tme = canTsr0.tme) ∨
  (m = 1 ∧ tsr 0 &&& canTsr0.tme ≠ canTsr0.tme ∧ tsr 1 &&& canTsr1.tme = canTsr1.tme) ∨
  (m = 2 ∧ tsr 0 &&& canTsr0.tme ≠ canTsr0.tme ∧ tsr 1 &&& canTsr1.tme ≠ canTsr1.tme ∧
    tsr 2 &&& canTsr2.tme = canTsr2.tme)

theorem FirstEmpty.lt {tsr : ℕ → U32} {m : ℕ} (h : FirstEmpty tsr m) : m < 3 := by
  rcases h with ⟨rfl, -⟩ | ⟨rfl, -⟩ | ⟨rfl, -⟩ <;> decide

theorem FirstEmpty.select {tsr : ℕ → U32} {m : ℕ} (h : FirstEmpty tsr m) :
    canSelectMailBox tsr = (BitVec.ofNat 8 m, m + 1) := by
  unfold canSelectMailBox
  rcases h with ⟨rfl, h₀⟩ | ⟨rfl, h₀, h₁⟩ | ⟨rfl, h₀, h₁, h₂⟩
  · rw [if_pos h₀]
    rfl
  · rw [if_neg h₀, if_pos h₁]
    rfl
  · rw [if_neg h₀, if_neg h₁, if_pos h₂]
    rfl

theorem FirstEmpty.unique {tsr : ℕ → U32} {m m' : ℕ} (h : FirstEmpty tsr m) (h' : FirstEmpty tsr m') :
    m' = m := by
  have hsel := congrArg Prod.snd (h.select.symm.trans h'.select)
  exact (Nat.succ_injective hsel).symm

theorem canSelectMailBox_none {tsr : ℕ → U32} (h : ∀ m, ¬FirstEmpty tsr m) :
    canSelectMailBox tsr = (canTxStatusNoMailBox, 3) := by
  unfold canSelectMailBox
  split_ifs with h₀ h₁ h₂
  · exact absurd (Or.inl ⟨rfl, h₀⟩) (h 0)
  · exact absurd (Or.inr (Or.inl ⟨rfl, h₀, h₁⟩)) (h 1)
  · exact absurd (Or.inr (Or.inr ⟨rfl, h₀, h₁, h₂⟩)) (h 2)
  · rfl

/-- The mailbox holds a standard data frame of `len` bytes with identifier `id`, and its
transmission is requested. -/
structure HoldsFrame (box : CanTxMailBox) (id : U32) (msg : ℕ → U8) (len : ℕ) : Prop where
  id : box.tir >>> 21 = id
  standard : box.tir.getLsbD 2 = false
  dataFrame : box.tir.getLsbD 1 = false
  request : box.tir.getLsbD 0 = true
  length : (box.tdtr &&& 0xF).toNat = len
  low : ∀ i < 4, i < len → (box.tdlr >>> (8 * i)).setWidth 8 = msg i
  high : ∀ i < 4, 4 + i < len → (box.tdhr >>> (8 * i)).setWidth 8 = msg (4 + i)

theorem canDataWord_toNat (data : ℕ → U8) (i : ℕ) : (canDataWord data i).toNat =
    2 ^ 24 * (data (i + 3)).toNat + 2 ^ 16 * (data (i + 2)).toNat + 2 ^ 8 * (data (i + 1)).toNat +
      (data i).toNat := by
  have hlt : ∀ j, (data j).toNat < 256 := fun j => (data j).isLt
  have h₀ := hlt i
  have h₁ := hlt (i + 1)
  have h₂ := hlt (i + 2)
  have h₃ := hlt (i + 3)
  have hshift : ∀ j k, 8 + k ≤ 32 → ((data j).setWidth 32 <<< k : U32).toNat = 2 ^ k * (data j).toNat := by
    intro j k hk
    have hpow : 2 ^ k * (data j).toNat < 2 ^ 32 :=
      calc 2 ^ k * (data j).toNat < 2 ^ k * 2 ^ 8 := Nat.mul_lt_mul_of_pos_left (hlt j) (Nat.two_pow_pos k)
        _ = 2 ^ (8 + k) := by rw [← Nat.pow_add, Nat.add_comm]
        _ ≤ 2 ^ 32 := Nat.pow_le_pow_right (by omega) hk
    have hwidth : ((data j).setWidth 32 : U32).toNat = (data j).toNat := by
      have := hlt j
      rw [BitVec.toNat_setWidth]
      omega
    rw [BitVec.toNat_shiftLeft, hwidth, Nat.shiftLeft_eq, Nat.mul_comm, Nat.mod_eq_of_lt hpow]
  have hlow : ((data i).setWidth 32 : U32).toNat = (data i).toNat := by
    rw [BitVec.toNat_setWidth]
    omega
  simp only [canDataWord, BitVec.toNat_or, hshift _ _ (show 8 + 24 ≤ 32 by decide),
    hshift _ _ (show 8 + 16 ≤ 32 by decide), hshift _ _ (show 8 + 8 ≤ 32 by decide), hlow]
  rw [← Nat.two_pow_add_eq_or_of_lt (i := 24) (by omega),
    show 2 ^ 24 * (data (i + 3)).toNat + 2 ^ 16 * (data (i + 2)).toNat =
      2 ^ 16 * (2 ^ 8 * (data (i + 3)).toNat + (data (i + 2)).toNat) by omega,
    ← Nat.two_pow_add_eq_or_of_lt (i := 16) (by omega),
    show ∀ x, 2 ^ 16 * x + 2 ^ 8 * (data (i + 1)).toNat = 2 ^ 8 * (2 ^ 8 * x + (data (i + 1)).toNat) by
      intro x; omega,
    ← Nat.two_pow_add_eq_or_of_lt (i := 8) (by omega)]

theorem canDataWord_byte (data : ℕ → U8) (i : ℕ) {j : ℕ} (hj : j < 4) :
    (canDataWord data i >>> (8 * j)).setWidth 8 = data (i + j) := by
  have hlt : ∀ j, (data j).toNat < 256 := fun j => (data j).isLt
  have h₀ := hlt i
  have h₁ := hlt (i + 1)
  have h₂ := hlt (i + 2)
  have h₃ := hlt (i + 3)
  apply BitVec.eq_of_toNat_eq
  rw [BitVec.toNat_setWidth, BitVec.toNat_ushiftRight, canDataWord_toNat, Nat.shiftRight_eq_div_pow]
  interval_cases j
  · change _ = (data i).toNat
    omega
  all_goals omega

theorem copyMsg_lt (data msg : ℕ → U8) {len i : ℕ} (h : i < len) : copyMsg data msg len i = msg i := by
  induction len with
  | zero => exact absurd h (Nat.not_lt_zero i)
  | succ len ih =>
    rw [copyMsg, Function.update_apply]
    split_ifs with hi
    · rw [hi]
    · exact ih (by omega)

/-- The identifier register after a call, bit by bit: TXRQ and the standard identifier. -/
theorem canTir_getLsbD (tir id : U32) {k : ℕ} (hk : k < 32) :
    ((tir &&& 1) ||| (id <<< 21 ||| (0 : U8).setWidth 32) ||| 1).getLsbD k =
      (decide (k = 0) || decide (21 ≤ k) && id.getLsbD (k - 21)) := by
  have hone : (1 : U32).getLsbD k = decide (k = 0) := by
    rw [show (1 : U32) = 1#32 by rfl, BitVec.getLsbD_one]
    simp
  have hzero : ((0 : U8).setWidth 32).getLsbD k = false := by simp
  simp only [BitVec.getLsbD_or, BitVec.getLsbD_and, BitVec.getLsbD_shiftLeft, hone, hzero]
  by_cases h0 : k = 0
  · simp [h0]
  · by_cases h21 : k < 21
    · simp [h0, h21]
    · simp [h0, h21, hk, Nat.le_of_not_lt h21]

theorem holdsFrame_canFillMailBox (box : CanTxMailBox) {id : U32} (hid : id.toNat < 2 ^ 11)
    (data msg : ℕ → U8) {len : U8} (hlen : len.toNat ≤ 8) :
    HoldsFrame (canFillMailBox box ⟨id, id, 0, 0, len, copyMsg data msg len.toNat⟩) id msg
      len.toNat := by
  have htir : (canFillMailBox box ⟨id, id, 0, 0, len, copyMsg data msg len.toNat⟩).tir =
      (box.tir &&& 1) ||| (id <<< 21 ||| (0 : U8).setWidth 32) ||| 1 := rfl
  refine ⟨?_, ?_, ?_, ?_, ?_, fun i hi hil => ?_, fun i hi hil => ?_⟩
  · apply BitVec.eq_of_getLsbD_eq
    intro k hk
    rw [htir, BitVec.getLsbD_ushiftRight]
    by_cases hk11 : k < 11
    · rw [canTir_getLsbD _ _ (by omega)]
      simp
    · have hhigh : id.getLsbD k = false :=
        Nat.testBit_lt_two_pow (hid.trans_le (Nat.pow_le_pow_right (by omega) (by omega)))
      rw [BitVec.getLsbD_of_ge _ _ (by omega), hhigh]
  · rw [htir, canTir_getLsbD _ _ (by decide)]
    rfl
  · rw [htir, canTir_getLsbD _ _ (by decide)]
    rfl
  · rw [htir, canTir_getLsbD _ _ (by decide)]
    rfl
  · have hkept : (0xFFFFFFF0 : U32) &&& 0xF = 0#32 := by decide
    have hmask : (0x0F : U8).toNat = 2 ^ 4 - 1 ∧ (0xF : U32).toNat = 2 ^ 4 - 1 := ⟨rfl, rfl⟩
    rw [canFillMailBox, BitVec.and_or_distrib_right, BitVec.and_assoc, hkept, BitVec.and_zero,
      BitVec.zero_or, BitVec.toNat_and, BitVec.toNat_setWidth, BitVec.toNat_and, hmask.1, hmask.2,
      Nat.and_two_pow_sub_one_eq_mod, Nat.and_two_pow_sub_one_eq_mod]
    change len.toNat % 2 ^ 4 % 2 ^ 32 % 2 ^ 4 = len.toNat
    omega
  · have hbyte := canDataWord_byte (copyMsg data msg len.toNat) 0 hi
    rw [Nat.zero_add, copyMsg_lt _ _ hil] at hbyte
    exact hbyte
  · have hbyte := canDataWord_byte (copyMsg data msg len.toNat) 4 hi
    rw [copyMsg_lt _ _ hil] at hbyte
    exact hbyte

theorem canTransmitStatus_noMailBox (tsr : U32) :
    canTransmitStatus tsr canTxStatusNoMailBox = canTxStatusPending := rfl

theorem canTransmitStatus_cases (tsr : U32) (mbox : U8) :
    canTransmitStatus tsr mbox = canTxStatusFailed ∨ canTransmitStatus tsr mbox = canTxStatusOk ∨
      canTransmitStatus tsr mbox = canTxStatusPending := by
  unfold canTransmitStatus
  generalize (ite (mbox = 0) _ _ : U32) = state
  simp only
  split_ifs
  · exact Or.inr (Or.inr rfl)
  · exact Or.inl rfl
  · exact Or.inl rfl
  · exact Or.inl rfl
  · exact Or.inr (Or.inl rfl)
  · exact Or.inr (Or.inl rfl)
  · exact Or.inr (Or.inl rfl)
  · exact Or.inl rfl

def canTsrMask : ℕ → U32
  | 0 => canTsr0.rqcp ||| canTsr0.txok ||| canTsr0.tme
  | 1 => canTsr1.rqcp ||| canTsr1.txok ||| canTsr1.tme
  | _ => canTsr2.rqcp ||| canTsr2.txok ||| canTsr2.tme

theorem and_canTsrMask_eq {word : U32} {m m' : ℕ} (hm : m < 3) (hm' : m' < 3)
    (h : word &&& canTsrMask m = canTsrMask m') : m' = m := by
  have hsub : canTsrMask m' &&& canTsrMask m = canTsrMask m' := by
    rw [← h, BitVec.and_assoc, BitVec.and_self]
  by_contra hne
  revert hsub
  interval_cases m <;> interval_cases m' <;> first | exact absurd rfl hne | decide

/-- The status of a mailbox is Pending when its three bits are clear, and Ok when they are
all set. -/
theorem canTransmitStatus_iff (word : U32) {m : ℕ} (hm : m < 3) :
    (canTransmitStatus word (BitVec.ofNat 8 m) = canTxStatusPending ↔ word &&& canTsrMask m = 0) ∧
    (canTransmitStatus word (BitVec.ofNat 8 m) = canTxStatusOk ↔
      word &&& canTsrMask m = canTsrMask m) := by
  have hset : canTsrMask m ≠ 0 ∧ canTsrMask m ≠ canTsr0.rqcp ||| canTsr0.tme ∧
      canTsrMask m ≠ canTsr1.rqcp ||| canTsr1.tme ∧ canTsrMask m ≠ canTsr2.rqcp ||| canTsr2.tme := by
    interval_cases m <;> decide
  have hother : ∀ m' < 3, word &&& canTsrMask m = canTsrMask m' → word &&& canTsrMask m = canTsrMask m := by
    intro m' hm' h
    rw [h, and_canTsrMask_eq hm hm' h]
  unfold canTransmitStatus
  generalize hs : (ite (BitVec.ofNat 8 m = 0) _ _ : U32) = state
  have hstate : word &&& canTsrMask m = state := by
    rw [← hs]
    interval_cases m <;> rfl
  rw [hstate] at hother ⊢
  simp only
  refine ⟨?_, ?_⟩
  · split_ifs with h0
    · exact iff_of_true rfl h0
    all_goals exact iff_of_false (by decide) h0
  · split_ifs with h0 hf0 hf1 hf2 hok0 hok1 hok2
    · exact iff_of_false (by decide) fun h => hset.1 (h.symm.trans h0)
    · exact iff_of_false (by decide) fun h => hset.2.1 (h.symm.trans hf0)
    · exact iff_of_false (by decide) fun h => hset.2.2.1 (h.symm.trans hf1)
    · exact iff_of_false (by decide) fun h => hset.2.2.2 (h.symm.trans hf2)
    · exact iff_of_true rfl (hother 0 (by decide) hok0)
    · exact iff_of_true rfl (hother 1 (by decide) hok1)
    · exact iff_of_true rfl (hother 2 (by decide) hok2)
    · refine iff_of_false (by decide) fun h => ?_
      interval_cases m
      · exact hok0 h
      · exact hok1 h
      · exact hok2 h

/-- The status that poll `k` finds when mailbox `m` was selected after `m + 1` reads. -/
def sendStatus (tsr : ℕ → U32) (m k : ℕ) : U8 :=
  canTransmitStatus (tsr (m + 1 + k)) (BitVec.ofNat 8 m)

section Send

variable {tsr : ℕ → U32} {sTxMailBox : ℕ → CanTxMailBox} {id : U32} {data msg : ℕ → U8} {len : U8}
  {m : ℕ}

/-- Without a mailbox the first status is Pending and the call returns 0. -/
theorem canSendData_noMailBox (h : ∀ m, ¬FirstEmpty tsr m) :
    canSendData id tsr sTxMailBox data msg len =
      ⟨0, canTxStatusNoMailBox, sTxMailBox, [canTxStatusPending]⟩ := by
  have hpoll : poll (· = canTxStatusFailed)
      (fun k => canTransmitStatus (tsr (3 + k)) canTxStatusNoMailBox) 0xFFF =
      ([canTxStatusPending], false) := by
    refine poll_stops (by decide) (fun j hj => absurd hj (Nat.not_lt_zero j)) ?_
    rw [canTransmitStatus_noMailBox]
    decide
  simp only [canSendData, canTransmit, canSelectMailBox_none h]
  rw [if_neg (not_not_intro rfl), hpoll]
  rfl

/-- With one, the frame is put there and the outcome is that of the polling. -/
theorem canSendData_mailBox (h : FirstEmpty tsr m) :
    canSendData id tsr sTxMailBox data msg len =
      let polled := poll (· = canTxStatusFailed) (sendStatus tsr m) 0xFFF
      ⟨if polled.2 then 1 else 0, BitVec.ofNat 8 m,
        Function.update sTxMailBox m (canFillMailBox (sTxMailBox m)
          ⟨id, id, 0, 0, len, copyMsg data msg len.toNat⟩), polled.1⟩ := by
  have hlt := h.lt
  have hne : BitVec.ofNat 8 m ≠ canTxStatusNoMailBox := by
    interval_cases m <;> decide
  have hnat : (BitVec.ofNat 8 m).toNat = m := by
    rw [BitVec.toNat_ofNat]
    omega
  simp only [canSendData, canTransmit, h.select, hnat]
  rw [if_pos hne]
  rfl

/-- 0 is returned only for a frame that a mailbox has taken and sent, and 1 where there was
no mailbox, or the frame was pending or had failed at the last poll. -/
structure SendReported (tsr : ℕ → U32) (sTxMailBox : ℕ → CanTxMailBox) (id : U32) (msg : ℕ → U8)
    (len : ℕ) (r : CanSend) : Prop where
  sent : r.ret = 0 → ∃ m, FirstEmpty tsr m ∧ r.mbox.toNat = m ∧
    HoldsFrame (r.sTxMailBox m) id msg len ∧ (∀ j, j ≠ m → r.sTxMailBox j = sTxMailBox j) ∧
    r.polled.getLast? = some canTxStatusOk
  unsent : (∀ m, ¬FirstEmpty tsr m) ∨ r.polled.getLast? = some canTxStatusPending ∨
    r.polled.getLast? = some canTxStatusFailed → r.ret = 1

/-- A mailbox is empty, and of the first 0xFFF words polled for it none has its three bits
clear before one has them all set. -/
def NoPendingBeforeOk (tsr : ℕ → U32) : Prop :=
  ∃ m, FirstEmpty tsr m ∧ ∀ k < 0xFFF, tsr (m + 1 + k) &&& canTsrMask m = 0 →
    ∃ j < k, tsr (m + 1 + j) &&& canTsrMask m = canTsrMask m

/-- The outcome of a call whose polling ended at poll `k`, with a status that is not Failed. -/
theorem sendReported_stop {k : ℕ} (hid : id.toNat < 2 ^ 11) (hlen : len.toNat ≤ 8)
    (hm : FirstEmpty tsr m) (hk : k < 0xFFF) (hbefore : ∀ j < k, sendStatus tsr m j = canTxStatusFailed)
    (hstop : sendStatus tsr m k ≠ canTxStatusFailed) :
    SendReported tsr sTxMailBox id msg len.toNat (canSendData id tsr sTxMailBox data msg len) ↔
      sendStatus tsr m k = canTxStatusOk := by
  have hlast : (slice (sendStatus tsr m) 0 (k + 1)).getLast? = some (sendStatus tsr m k) := by
    rw [slice_getLast, Nat.zero_add]
  rw [canSendData_mailBox hm, poll_stops hk hbefore hstop]
  constructor
  · rintro ⟨hsent, -⟩
    obtain ⟨-, -, -, -, -, hok⟩ := hsent rfl
    exact Option.some_inj.mp (hlast.symm.trans hok)
  · intro hok
    rw [hok] at hlast
    refine ⟨fun _ => ⟨m, hm, ?_, ?_, fun j hj => Function.update_of_ne hj _ _, hlast⟩, ?_⟩
    · have hlt := hm.lt
      exact Nat.mod_eq_of_lt (by omega)
    · simp only [Function.update_self]
      exact holdsFrame_canFillMailBox _ hid data msg hlen
    · simp only [hlast]
      rintro (hnone | hpending | hfailed)
      · exact absurd hm (hnone m)
      · exact absurd hpending (by decide)
      · exact absurd hfailed (by decide)

theorem sendReported_iff (hid : id.toNat < 2 ^ 11) (hlen : len.toNat ≤ 8) :
    SendReported tsr sTxMailBox id msg len.toNat (canSendData id tsr sTxMailBox data msg len) ↔
      NoPendingBeforeOk tsr := by
  by_cases hbox : ∃ m, FirstEmpty tsr m
  · obtain ⟨m, hm⟩ := hbox
    have hbits : NoPendingBeforeOk tsr ↔ ∀ k < 0xFFF, sendStatus tsr m k = canTxStatusPending →
        ∃ j < k, sendStatus tsr m j = canTxStatusOk := by
      have hstatus := fun k => canTransmitStatus_iff (tsr (m + 1 + k)) hm.lt
      simp only [sendStatus, hstatus]
      refine ⟨?_, fun h => ⟨m, hm, h⟩⟩
      rintro ⟨m', hm', h⟩
      rwa [hm.unique hm'] at h
    rw [hbits]
    rcases poll_cases (· = canTxStatusFailed) (sendStatus tsr m) 0xFFF with
      hall | ⟨k, hk, hbefore, hstop⟩
    · -- every poll failed, and the call returns 1
      have hone : (1 : U8) ≠ 0 := by decide
      have hne : canTxStatusFailed ≠ canTxStatusPending := by decide
      refine iff_of_true ?_ fun k hk hpending => absurd ((hall k hk).symm.trans hpending) hne
      rw [canSendData_mailBox hm, poll_exhausted hall]
      exact ⟨fun hret => absurd hret hone, fun _ => rfl⟩
    · rw [sendReported_stop hid hlen hm hk hbefore hstop]
      constructor
      · intro hok k' hk' hpending
        rcases lt_trichotomy k' k with hlt | rfl | hgt
        · exact absurd ((hbefore k' hlt).symm.trans hpending) (by decide)
        · exact absurd (hok.symm.trans hpending) (by decide)
        · exact ⟨k, hgt, hok⟩
      · intro h
        rcases canTransmitStatus_cases (tsr (m + 1 + k)) (BitVec.ofNat 8 m) with hf | hok | hpending
        · exact absurd hf hstop
        · exact hok
        · obtain ⟨j, hj, hok⟩ := h k hk hpending
          exact absurd ((hbefore j hj).symm.trans hok) (by decide)
  · rw [not_exists] at hbox
    refine iff_of_false ?_ fun ⟨m, hm, _⟩ => hbox m hm
    rintro ⟨hsent, -⟩
    rw [canSendData_noMailBox hbox] at hsent
    obtain ⟨m, hm, -⟩ := hsent rfl
    exact hbox m hm

end Send

/-- Both send functions report what has become of the frame exactly when a mailbox is empty
and no poll finds the transmission pending before one finds it done. -/
theorem canSend_reported_iff (tsr : ℕ → U32) (sTxMailBox : ℕ → CanTxMailBox) (data msg : ℕ → U8)
    (len : U8) (hlen : len.toNat ≤ 8) :
    (SendReported tsr sTxMailBox 0x12 msg len.toNat (can1SendData tsr sTxMailBox data msg len) ↔
      NoPendingBeforeOk tsr) ∧
    (SendReported tsr sTxMailBox 0x22 msg len.toNat (can2SendData tsr sTxMailBox data msg len) ↔
      NoPendingBeforeOk tsr) :=
  ⟨sendReported_iff (by decide) hlen, sendReported_iff (by decide) hlen⟩

/-- The frame is sent at once: the first read finds mailbox 0 empty, the second RQCP and TXOK. -/
theorem canSend_reported_iff_sent :
    SendReported (fun _ => 0x04000003) (fun _ => ⟨0, 0, 0, 0⟩) 0x12 (fun _ => 7) 8
      (can1SendData (fun _ => 0x04000003) (fun _ => ⟨0, 0, 0, 0⟩) (fun _ => 0) (fun _ => 7) 8) := by
  refine (canSend_reported_iff _ _ (fun _ => 0) (fun _ => 7) 8 (by decide)).1.mpr ?_
  have hset : (0x04000003 : U32) &&& canTsrMask 0 ≠ 0 := by decide
  exact ⟨0, Or.inl ⟨rfl, by decide⟩, fun k _ hclear => absurd hclear hset⟩

/-- All three mailboxes are occupied, and the call returns 0. -/
theorem canSend_not_reported :
    ¬ ∀ (tsr : ℕ → U32) (sTxMailBox : ℕ → CanTxMailBox) (data msg : ℕ → U8) (len : U8),
      len.toNat ≤ 8 → SendReported tsr sTxMailBox 0x12 msg len.toNat
        (can1SendData tsr sTxMailBox data msg len) := by
  intro hall
  have hrep := hall (fun _ => 0) (fun _ => ⟨0, 0, 0, 0⟩) (fun _ => 0) (fun _ => 7) 8 (by decide)
  have hnone : ∀ m, ¬FirstEmpty (fun _ => 0) m := by
    rintro m (⟨-, h⟩ | ⟨-, -, h⟩ | ⟨-, -, -, h⟩) <;> exact absurd h (by decide)
  have hret := hrep.unsent (Or.inl hnone)
  rw [can1SendData, canSendData_noMailBox hnone] at hret
  exact absurd hret (by decide)

end Stm32F407
