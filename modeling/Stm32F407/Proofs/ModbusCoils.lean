import Stm32F407.Proofs.ModbusFunc

/-! What a write of coils leaves in the table. Every round of the write loop goes to
the same eight coils, since the bit offset stays where it is, and the bits of a
value byte above the count of its round are or-ed in; so the outcome is that of
the last two rounds. -/

namespace Stm32F407

open Lib

def valBit (buf : ℕ → U8) (p k : ℕ) : Bool := (buf (p + k / 8)).getLsbD (k % 8)

theorem valBit_add (buf : ℕ → U8) (p r : ℕ) {i : ℕ} (hi : i < 8) :
    valBit buf p (8 * r + i) = (buf (p + r)).getLsbD i := by
  rw [valBit, show (8 * r + i) / 8 = r by omega, show (8 * r + i) % 8 = i by omega]

/-- A coil outside the eight at the offset is touched by no round that writes eight bits. -/
theorem bitAt_setBits_outside (tbl : ℕ → U8) (off : U16) {c : ℕ} (hc : c ≤ 8) (v : U8) {k : ℕ}
    (hk : k < off.toNat ∨ off.toNat + 8 ≤ k) : bitAt (xMBUtilSetBits tbl off c v) k = bitAt tbl k := by
  rw [bitAt_setBits]
  split_ifs with hin hlt
  · omega
  · rw [BitVec.getLsbD_of_ge _ _ (by omega), Bool.or_false]
  · rfl

theorem bitAt_setBits_inside (tbl : ℕ → U8) (off : U16) (c : ℕ) (v : U8) {i : ℕ} (hi : i < 8) :
    bitAt (xMBUtilSetBits tbl off c v) (off.toNat + i) =
      if i < c then v.getLsbD i else bitAt tbl (off.toNat + i) || v.getLsbD i := by
  rw [bitAt_setBits, if_pos (by omega), Nat.add_sub_cancel_left]

theorem writeBits_outside (tbl : ℕ → U8) (off : U16) (n : ℕ) (buf : ℕ → U8) (p rounds : ℕ) {k : ℕ}
    (hk : k < off.toNat ∨ off.toNat + 8 ≤ k) :
    bitAt (writeBits tbl off n buf p rounds) k = bitAt tbl k := by
  have hleft : ∀ c, bitsLeft c ≤ 8 := by
    intro c
    unfold bitsLeft
    split_ifs <;> omega
  induction rounds with
  | zero => rfl
  | succ rounds ih => rw [writeBits_succ, bitAt_setBits_outside _ _ (hleft _) _ hk, ih]

/-- After rounds of eight bits the coils hold the value byte of the last of them. -/
theorem writeBits_full (tbl : ℕ → U8) (off : U16) {n : ℕ} (buf : ℕ → U8) (p : ℕ) {rounds i : ℕ}
    (hn : 8 * (rounds + 1) ≤ n) (hi : i < 8) :
    bitAt (writeBits tbl off n buf p (rounds + 1)) (off.toNat + i) =
      valBit buf p (8 * rounds + i) := by
  have hleft : bitsLeft (n - 8 * rounds) = 8 := by
    unfold bitsLeft
    split_ifs <;> omega
  rw [writeBits_succ, bitAt_setBits_inside _ _ _ _ hi, hleft, if_pos hi, valBit_add _ _ _ hi]

def lastChunk (n : ℕ) : ℕ := 8 * ((n - 1) / 8)

/-- What coil `a + i` holds after a write of `n` coils, `old` being what it held before. -/
def lastBit (buf : ℕ → U8) (p n i : ℕ) (old : Bool) : Bool :=
  if lastChunk n + i < n then valBit buf p (lastChunk n + i)
  else (if n ≤ 8 then old else valBit buf p (lastChunk n - 8 + i)) || valBit buf p (lastChunk n + i)

theorem writeBits_last (tbl : ℕ → U8) (off : U16) {n : ℕ} (buf : ℕ → U8) (p : ℕ) {i : ℕ}
    (hn : 1 ≤ n) (hi : i < 8) :
    bitAt (writeBits tbl off n buf p ((n + 7) / 8)) (off.toNat + i) =
      lastBit buf p n i (bitAt tbl (off.toNat + i)) := by
  have hrounds : (n + 7) / 8 = (n - 1) / 8 + 1 := by omega
  have hleft : bitsLeft (n - 8 * ((n - 1) / 8)) = n - 8 * ((n - 1) / 8) := by
    unfold bitsLeft
    split_ifs <;> omega
  rw [hrounds, writeBits_succ, bitAt_setBits_inside _ _ _ _ hi, hleft, lastBit, lastChunk,
    valBit_add _ _ _ hi]
  have hlt : i < n - 8 * ((n - 1) / 8) ↔ 8 * ((n - 1) / 8) + i < n := by omega
  simp only [hlt]
  split_ifs with hval h8
  · rfl
  · rw [show (n - 1) / 8 = 0 by omega]
    rfl
  · obtain ⟨r, hr⟩ : ∃ r, (n - 1) / 8 = r + 1 := ⟨(n - 1) / 8 - 1, by omega⟩
    rw [hr, writeBits_full tbl off buf p (by omega) hi, Nat.mul_succ, Nat.add_sub_cancel]

/-- The coils addressed hold the value bits, all others are as before, and reading them
back gives the value bits and zeros for padding. -/
structure CoilsWritten (sz : RegSizes) (r : Regs) (buf : ℕ → U8) (p : ℕ) (a n : U16) : Prop where
  status : (eMBRegCoilsCB sz r buf p a n .write).1 = .noErr
  coils : ∀ i < n.toNat,
    bitAt (eMBRegCoilsCB sz r buf p a n .write).2.2.ucRegCoilsBuf (a.toNat + i) = valBit buf p i
  others : ∀ k < sz.coilsSize, k < a.toNat ∨ a.toNat + n.toNat ≤ k →
    bitAt (eMBRegCoilsCB sz r buf p a n .write).2.2.ucRegCoilsBuf k = bitAt r.ucRegCoilsBuf k
  readStatus : ∀ out q,
    (eMBRegCoilsCB sz (eMBRegCoilsCB sz r buf p a n .write).2.2 out q a n .read).1 = .noErr
  readBack : ∀ out q, ∀ k < 8 * ((n.toNat + 7) / 8),
    valBit (eMBRegCoilsCB sz (eMBRegCoilsCB sz r buf p a n .write).2.2 out q a n .read).2.1 q k =
      (decide (k < n.toNat) && valBit buf p k)

/-- When a write does what it should: up to eight coils, every padding bit that is set
meets a coil that is set (or none); more coils, those from the ninth on hold their value
already, and the first eight values are what the last two rounds leave there. -/
def WriteMatches (sz : RegSizes) (tbl : ℕ → U8) (buf : ℕ → U8) (p a n : ℕ) : Prop :=
  if n ≤ 8 then
    ∀ i < 8, n ≤ i → a + i < sz.coilsSize → valBit buf p i = true → bitAt tbl (a + i) = true
  else
    (∀ i < n, 8 ≤ i → bitAt tbl (a + i) = valBit buf p i) ∧
    ∀ i < 8, valBit buf p i =
      if lastChunk n + i < n then valBit buf p (lastChunk n + i)
      else valBit buf p (lastChunk n - 8 + i) || valBit buf p (lastChunk n + i)

variable {sz : RegSizes} {r : Regs} {buf : ℕ → U8} {p : ℕ} {a n : U16}

/-- The table after a write in range. -/
theorem coilsCB_write_inside (r : Regs) (buf : ℕ → U8) (p : ℕ) (hS : sz.coilsSize < 32768)
    (hfit : a.toNat + n.toNat ≤ sz.coilsSize) :
    eMBRegCoilsCB sz r buf p a n .write =
    (.noErr, buf, { r with
      ucRegCoilsBuf := writeBits r.ucRegCoilsBuf a n.toNat buf p ((n.toNat + 7) / 8) }) := by
  obtain ⟨hint, hrounds⟩ := bitRounds_eq (n := n) (by omega)
  rw [coilsCB_write, if_pos ⟨by omega, hfit⟩, hint, hrounds]

theorem coilsCB_read_inside (hS : sz.coilsSize < 32768) (hfit : a.toNat + n.toNat ≤ sz.coilsSize) :
    eMBRegCoilsCB sz r buf p a n .read =
    (.noErr, readBits r.ucRegCoilsBuf a n.toNat buf p ((n.toNat + 7) / 8), r) := by
  obtain ⟨hint, hrounds⟩ := bitRounds_eq (n := n) (by omega)
  rw [coilsCB_read, if_pos ⟨by omega, hfit⟩, hint, hrounds]

/-- It is enough to know the coils of the table. -/
theorem coilsWritten_of_table (hS : sz.coilsSize < 32768)
    (hfit : a.toNat + n.toNat ≤ sz.coilsSize)
    (hcoils : ∀ i < n.toNat, bitAt (writeBits r.ucRegCoilsBuf a n.toNat buf p ((n.toNat + 7) / 8))
      (a.toNat + i) = valBit buf p i)
    (hothers : ∀ k < sz.coilsSize, k < a.toNat ∨ a.toNat + n.toNat ≤ k →
      bitAt (writeBits r.ucRegCoilsBuf a n.toNat buf p ((n.toNat + 7) / 8)) k =
        bitAt r.ucRegCoilsBuf k) : CoilsWritten sz r buf p a n := by
  have hwrite := coilsCB_write_inside r buf p hS hfit
  constructor
  · rw [hwrite]
  · rwa [hwrite]
  · rwa [hwrite]
  · intro out q
    rw [coilsCB_read_inside hS hfit]
  · intro out q k hk
    rw [coilsCB_read_inside hS hfit, hwrite, valBit, readBits_getLsbD _ _ _ _ _ hk (by omega)]
    by_cases hkn : k < n.toNat
    · simp only [hcoils k hkn]
    · simp [hkn]

theorem writeBits_first {i : ℕ} (hn : 1 ≤ n.toNat) (h8 : n.toNat ≤ 8) (hi : i < 8) :
    bitAt (writeBits r.ucRegCoilsBuf a n.toNat buf p ((n.toNat + 7) / 8)) (a.toNat + i) =
      if i < n.toNat then valBit buf p i
      else bitAt r.ucRegCoilsBuf (a.toNat + i) || valBit buf p i := by
  have hchunk : lastChunk n.toNat = 0 := by
    unfold lastChunk
    omega
  rw [writeBits_last _ _ _ _ hn hi, lastBit, hchunk, if_pos h8, Nat.zero_add]

/-- Up to eight coils: only the padding bits matter. -/
theorem coilsWritten_iff_padding (hS : sz.coilsSize < 32768) (hn : 1 ≤ n.toNat) (h8 : n.toNat ≤ 8)
    (hfit : a.toNat + n.toNat ≤ sz.coilsSize) :
    CoilsWritten sz r buf p a n ↔ ∀ i < 8, n.toNat ≤ i → a.toNat + i < sz.coilsSize →
      valBit buf p i = true → bitAt r.ucRegCoilsBuf (a.toNat + i) = true := by
  constructor
  · intro hw i hi hni hS' hval
    have hold := hw.others (a.toNat + i) hS' (by omega)
    rw [coilsCB_write_inside r buf p hS hfit, writeBits_first hn h8 hi, if_neg (by omega), hval,
      Bool.or_true] at hold
    exact hold.symm
  · intro hpad
    refine coilsWritten_of_table hS hfit (fun i hi => ?_) fun k hk hout => ?_
    · rw [writeBits_first hn h8 (by omega), if_pos hi]
    · by_cases hin : k < a.toNat ∨ a.toNat + 8 ≤ k
      · exact writeBits_outside _ _ _ _ _ _ hin
      · obtain ⟨i, rfl⟩ : ∃ i, k = a.toNat + i := ⟨k - a.toNat, by omega⟩
        rw [writeBits_first hn h8 (by omega), if_neg (by omega)]
        cases hval : valBit buf p i with
        | false => exact Bool.or_false _
        | true => rw [hpad i (by omega) (by omega) hk hval, Bool.or_true]

/-- More coils: those behind the eighth are not written, the first eight more than once. -/
theorem coilsWritten_iff_chunks (hS : sz.coilsSize < 32768) (hn : 1 ≤ n.toNat) (h8 : ¬ n.toNat ≤ 8)
    (hfit : a.toNat + n.toNat ≤ sz.coilsSize) :
    CoilsWritten sz r buf p a n ↔
      (∀ i < n.toNat, 8 ≤ i → bitAt r.ucRegCoilsBuf (a.toNat + i) = valBit buf p i) ∧
      ∀ i < 8, valBit buf p i =
        if lastChunk n.toNat + i < n.toNat then valBit buf p (lastChunk n.toNat + i)
        else valBit buf p (lastChunk n.toNat - 8 + i) || valBit buf p (lastChunk n.toNat + i) := by
  have hlast : ∀ i < 8,
      bitAt (writeBits r.ucRegCoilsBuf a n.toNat buf p ((n.toNat + 7) / 8)) (a.toNat + i) =
        if lastChunk n.toNat + i < n.toNat then valBit buf p (lastChunk n.toNat + i)
        else valBit buf p (lastChunk n.toNat - 8 + i) || valBit buf p (lastChunk n.toNat + i) := by
    intro i hi
    rw [writeBits_last _ _ _ _ hn hi, lastBit, if_neg h8]
  have hwrite := coilsCB_write_inside r buf p hS hfit
  constructor
  · intro hw
    refine ⟨fun i hi h8i => ?_, fun i hi => ?_⟩
    · have hcoil := hw.coils i hi
      rw [hwrite] at hcoil
      rwa [writeBits_outside _ _ _ _ _ _ (by omega)] at hcoil
    · rw [← hlast i hi, ← hw.coils i (by omega), hwrite]
  · rintro ⟨htail, hhead⟩
    refine coilsWritten_of_table hS hfit (fun i hi => ?_) fun k hk hout => ?_
    · rcases Nat.lt_or_ge i 8 with hi8 | hi8
      · rw [hlast i hi8, hhead i hi8]
      · rw [writeBits_outside _ _ _ _ _ _ (by omega), htail i hi hi8]
    · exact writeBits_outside _ _ _ _ _ _ (by omega)

/-- A write in range does what it should exactly when the values and the table match. -/
theorem coilsWritten_iff (sz : RegSizes) (r : Regs) (buf : ℕ → U8) (p : ℕ) (a n : U16)
    (hS : sz.coilsSize < 32768) (hn : 1 ≤ n.toNat) (hfit : a.toNat + n.toNat ≤ sz.coilsSize) :
    CoilsWritten sz r buf p a n ↔ WriteMatches sz r.ucRegCoilsBuf buf p a.toNat n.toNat := by
  unfold WriteMatches
  split_ifs with h8
  · exact coilsWritten_iff_padding hS hn h8 hfit
  · exact coilsWritten_iff_chunks hS hn h8 hfit

/-- Eight coils from address 4 on. -/
theorem coilsWritten_iff_eight : CoilsWritten regSizes Regs.start (fun _ => 0x5A) 0 4 8 :=
  (coilsWritten_iff regSizes Regs.start (fun _ => 0x5A) 0 4 8 (by decide) (by decide)
    (by decide)).mpr (by unfold WriteMatches; decide)

/-- Sixteen coils, the first one set: the second value byte overwrites the first. -/
theorem not_coilsWritten :
    ¬ ∀ (sz : RegSizes) (r : Regs) (buf : ℕ → U8) (p : ℕ) (a n : U16), 8 ∣ sz.coilsSize →
      sz.coilsSize < 32768 → 1 ≤ n.toNat → a.toNat + n.toNat ≤ sz.coilsSize →
      CoilsWritten sz r buf p a n := by
  intro hall
  have hw := hall regSizes ⟨fun _ => 0, fun _ => 0, fun _ => 0, fun _ => 0⟩
    (fun j => if j = 0 then 1 else 0) 0 0 16 (by decide) (by decide) (by decide) (by decide)
  exact absurd (hw.coils 0 (by decide)) (by decide)

end Stm32F407
