import Stm32F407.Spec.Eth

/-! The two descriptor rings after their initialisation: each descriptor has a buffer
of its own and leads to the next, the last one to the first. -/

namespace Stm32F407

open Lib

variable {n : ℕ} {tab : ℕ → EthDmaDesc}

def Linked (n : ℕ) (tab : ℕ → EthDmaDesc) : Prop :=
  ∀ d < n, (tab d).buffer1Addr = d * ethMaxPacketSize ∧ (tab d).buffer2NextDescAddr = slot n d 1

theorem descChainInit_apply (set : EthDmaDesc → EthDmaDesc) (count : ℕ) (tab : ℕ → EthDmaDesc)
    (i d : ℕ) :
    descChainInit set count tab i d =
      if d < i then { set (tab d) with
        buffer1Addr := d * ethMaxPacketSize
        buffer2NextDescAddr := if d < count - 1 then d + 1 else 0 }
      else tab d := by
  induction i generalizing d with
  | zero => rfl
  | succ i ih =>
    simp only [descChainInit, Function.update_apply, ih]
    rcases eq_or_ne d i with rfl | hne
    · rw [if_pos rfl, if_neg (Nat.lt_irrefl d), if_pos (Nat.lt_succ_self d)]
    · have hlt : d < i ↔ d < i + 1 := by omega
      simp only [if_neg hne, hlt]

theorem linked_chainInit (set : EthDmaDesc → EthDmaDesc) (n : ℕ) (tab : ℕ → EthDmaDesc) :
    Linked n (descChainInit set n tab n) := by
  intro d hd
  rw [descChainInit_apply, if_pos hd, slot_succ_eq hd]
  exact ⟨rfl, rfl⟩

/-- What the initialisation sets is what `set` sets. -/
theorem status_chainInit (set : EthDmaDesc → EthDmaDesc) (tab : ℕ → EthDmaDesc) {d : ℕ} (hd : d < n) :
    (descChainInit set n tab n d).status = (set (tab d)).status := by
  rw [descChainInit_apply, if_pos hd]

theorem Linked.update (h : Linked n tab) {d : ℕ} {desc : EthDmaDesc}
    (haddr : desc.buffer1Addr = (tab d).buffer1Addr)
    (hnext : desc.buffer2NextDescAddr = (tab d).buffer2NextDescAddr) :
    Linked n (Function.update tab d desc) := by
  intro j hj
  rw [Function.update_apply]
  split_ifs with hjd
  · rw [haddr, hnext, ← hjd]
    exact h j hj
  · exact h j hj

/-- `ETH_DMATxDescChainInit` leaves every descriptor to the CPU. -/
theorem not_own_txChainInit (tab : ℕ → EthDmaDesc) {d : ℕ} (hd : d < n) :
    ¬(ethDMATxDescChainInit tab n d).Own := by
  have hzero : (0x00100000 : U32) &&& ownBit = 0 := by decide
  rw [EthDmaDesc.Own, ethDMATxDescChainInit, status_chainInit _ tab hd]
  exact not_not_intro hzero

/-- A length in the field `TBS1`. -/
theorem tbs1_mod (l : U16) : (l.setWidth 32 &&& 0x1FFF : U32).toNat = l.toNat % 8192 := by
  have hmask : (0x1FFF : U32).toNat = 2 ^ 13 - 1 := rfl
  have hlt := l.isLt
  rw [BitVec.toNat_and, hmask, Nat.and_two_pow_sub_one_eq_mod, BitVec.toNat_setWidth]
  omega

/-- Two buffers do not overlap. -/
theorem buffer_disjoint {d j : ℕ} (hne : j ≠ d) :
    (j + 1) * ethMaxPacketSize ≤ d * ethMaxPacketSize ∨
      (d + 1) * ethMaxPacketSize ≤ j * ethMaxPacketSize := by
  rcases Nat.lt_or_gt_of_ne hne with hlt | hgt
  · exact Or.inl (Nat.mul_le_mul_right _ hlt)
  · exact Or.inr (Nat.mul_le_mul_right _ hgt)

theorem EthDmaDesc.own_iff {d : EthDmaDesc} : d.Own ↔ d.status.getLsbD 31 = true :=
  and_mask_ne_zero_iff (by decide) (by decide)

theorem own_or (x : U32) : (x ||| ownBit) &&& ownBit ≠ 0 := by
  intro h
  have hbit := congrArg (fun v => BitVec.getLsbD v 31) h
  simp [ownBit] at hbit

theorem not_own_and (x : U32) : x &&& ~~~ownBit &&& ownBit = 0 := by
  have hzero : ~~~ownBit &&& ownBit = 0 := by decide
  rw [BitVec.and_assoc, hzero]
  exact BitVec.and_zero

end Stm32F407
