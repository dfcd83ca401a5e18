import Stm32F407.Spec.ModbusFunc

/-! What the loops of the register callbacks do to the frame and to the tables:
registers move as big-endian pairs, bits as the low bits of each frame byte. -/

namespace Stm32F407

open Lib

def regBytes (vals : List U16) : List U8 := vals.flatMap fun v => [hiByte v, loByte v]

@[simp] theorem regBytes_nil : regBytes [] = [] := rfl

@[simp] theorem regBytes_cons (v : U16) (vals : List U16) :
    regBytes (v :: vals) = hiByte v :: loByte v :: regBytes vals := rfl

@[simp] theorem regBytes_length (vals : List U16) : (regBytes vals).length = 2 * vals.length := by
  induction vals with
  | nil => rfl
  | cons v vals ih =>
    simp only [regBytes_cons, List.length_cons, ih]
    omega

def regVals (buf : ℕ → U8) (p n : ℕ) : List U16 := (List.range n).map fun i => pduWord buf (p + 2 * i)

@[simp] theorem regVals_length (buf : ℕ → U8) (p n : ℕ) : (regVals buf p n).length = n := by
  simp [regVals]

theorem regVals_getElem (buf : ℕ → U8) (p n i : ℕ) (h : i < (regVals buf p n).length) :
    (regVals buf p n)[i] = pduWord buf (p + 2 * i) := by
  simp [regVals]

theorem regVals_succ (buf : ℕ → U8) (p n : ℕ) :
    regVals buf p (n + 1) = pduWord buf p :: regVals buf (p + 2) n := by
  simp only [regVals, List.range_succ_eq_map, List.map_cons, List.map_map, Nat.mul_zero, Nat.add_zero]
  congr 1
  apply List.map_congr_left
  intro i _
  simp only [Function.comp_apply]
  congr 1
  omega

theorem regVals_congr {buf buf' : ℕ → U8} {p n : ℕ} (h : ∀ j, p ≤ j → j < p + 2 * n → buf j = buf' j) :
    regVals buf p n = regVals buf' p n := by
  apply List.map_congr_left
  intro i hi
  have hi := List.mem_range.mp hi
  simp only [pduWord, h (p + 2 * i) (by omega) (by omega), h (p + 2 * i + 1) (by omega) (by omega)]

theorem regVals_of_slice {buf : ℕ → U8} {p : ℕ} {vals : List U16}
    (h : slice buf p (2 * vals.length) = regBytes vals) : regVals buf p vals.length = vals := by
  induction vals generalizing p with
  | nil => rfl
  | cons v vals ih =>
    rw [List.length_cons, Nat.mul_succ, slice_succ', slice_succ', regBytes_cons] at h
    obtain ⟨hhi, hlo, htl⟩ : buf p = hiByte v ∧ buf (p + 1) = loByte v ∧
        slice buf (p + 1 + 1) (2 * vals.length) = regBytes vals := by simpa using h
    rw [List.length_cons, regVals_succ, ih htl, pduWord, hhi, hlo, be16_split]

/-- Register `i` of a run of registers written to the frame. -/
theorem pduWord_blit_regBytes (buf : ℕ → U8) (p : ℕ) (vals : List U16) (i : ℕ) (hi : i < vals.length) :
    pduWord (blit buf p (regBytes vals)) (p + 2 * i) = vals[i] := by
  induction vals generalizing buf p i with
  | nil => simp at hi
  | cons v vals ih =>
    rw [regBytes_cons, blit, blit]
    cases i with
    | zero =>
      have hcell : p + 2 * 0 = p := rfl
      rw [hcell, pduWord, blit_outside _ _ (by omega), blit_outside _ _ (by omega),
        Function.update_self, Function.update_of_ne (by omega), Function.update_self, be16_split]
      rfl
    | succ i =>
      have hcell : p + 2 * (i + 1) = p + 1 + 1 + 2 * i := by omega
      rw [hcell, ih _ _ _ (by simpa using hi), List.getElem_cons_succ]

theorem readRegs_eq (tbl : ℕ → U16) (i : ℕ) (buf : ℕ → U8) (p n : ℕ) :
    readRegs tbl i buf p n = blit buf p (regBytes (slice tbl i n)) := by
  induction n generalizing i buf p with
  | zero => rfl
  | succ n ih => rw [readRegs, ih, slice_succ', regBytes_cons, blit, blit]

theorem writeRegs_eq (tbl : ℕ → U16) (i : ℕ) (buf : ℕ → U8) (p n : ℕ) :
    writeRegs tbl i buf p n = blit tbl i (regVals buf p n) := by
  induction n generalizing i tbl p with
  | zero => rfl
  | succ n ih => rw [writeRegs, ih, regVals_succ, blit, pduWord]

def bitAt (tbl : ℕ → U8) (k : ℕ) : Bool := (tbl (k / 8)).getLsbD (k % 8)

theorem wordBuf_getLsbD (tbl : ℕ → U8) (k j : ℕ) (hj : j < 16) :
    (wordBuf tbl k).getLsbD j = bitAt tbl (8 * k + j) := by
  simp only [wordBuf, be16, BitVec.getLsbD_or, BitVec.getLsbD_shiftLeft, BitVec.getLsbD_setWidth,
    bitAt]
  by_cases h8 : j < 8
  · have hd : (8 * k + j) / 8 = k := by omega
    have hm : (8 * k + j) % 8 = j := by omega
    simp [hd, hm, h8, hj]
  · have hd : (8 * k + j) / 8 = k + 1 := by omega
    have hm : (8 * k + j) % 8 = j - 8 := by omega
    have hlo : (tbl k).getLsbD j = false := BitVec.getLsbD_of_ge _ _ (by omega)
    have hj8 : j - 8 < 16 := by omega
    simp [hd, hm, h8, hj, hlo, hj8]

theorem bitMask_getLsbD {n j : ℕ} (hj : j < 16) : (bitMask n).getLsbD j = decide (j < n) := by
  rw [bitMask, BitVec.getLsbD_ofNat, Nat.testBit_two_pow_sub_one]
  simp [hj]

theorem xMBUtilGetBits_getLsbD (tbl : ℕ → U8) (off : U16) {n j : ℕ} (hj : j < 8) :
    (xMBUtilGetBits tbl off n).getLsbD j = (decide (j < n) && bitAt tbl (off.toNat + j)) := by
  have hpre : off.toNat - off.toNat / 8 * 8 = off.toNat % 8 := by omega
  have hidx : 8 * (off.toNat / 8) + (off.toNat % 8 + j) = off.toNat + j := by omega
  simp only [xMBUtilGetBits, hpre, BitVec.getLsbD_setWidth, BitVec.getLsbD_and,
    BitVec.getLsbD_ushiftRight]
  rw [wordBuf_getLsbD tbl _ _ (by omega), hidx, bitMask_getLsbD (by omega)]
  simp [hj, Bool.and_comm]

/-- A count below 2 ^ 15 is not negative as a `SHORT`. -/
theorem bitRounds_eq {n : U16} (hn : n.toNat < 2 ^ 15) :
    n.toInt.toNat = n.toNat ∧ bitRounds n = (n.toNat + 7) / 8 := by
  have hint : n.toInt.toNat = n.toNat := by
    rw [BitVec.toInt_eq_toNat_of_lt (by omega)]
    rfl
  exact ⟨hint, by rw [bitRounds, hint]⟩

theorem readBits_outside (tbl : ℕ → U8) (off : U16) (n : ℕ) (buf : ℕ → U8) (p rounds j : ℕ)
    (h : j < p ∨ p + rounds ≤ j) : readBits tbl off n buf p rounds j = buf j := by
  induction rounds generalizing off n buf p with
  | zero => rfl
  | succ rounds ih =>
    rw [readBits, ih _ _ _ _ (by omega), Function.update_of_ne (by omega)]

theorem readBits_inside (tbl : ℕ → U8) (off : U16) (n : ℕ) (buf : ℕ → U8) (p rounds i : ℕ)
    (hi : i < rounds) :
    readBits tbl off n buf p rounds (p + i) =
      xMBUtilGetBits tbl (off + BitVec.ofNat 16 (8 * i)) (bitsLeft (n - 8 * i)) := by
  induction rounds generalizing off n buf p i with
  | zero => omega
  | succ rounds ih =>
    rw [readBits]
    cases i with
    | zero =>
      rw [readBits_outside _ _ _ _ _ _ _ (by omega)]
      simp
    | succ i =>
      have hoff : off + 8 + BitVec.ofNat 16 (8 * i) = off + BitVec.ofNat 16 (8 * (i + 1)) := by
        rw [Nat.mul_succ, BitVec.ofNat_add, BitVec.add_assoc, BitVec.add_comm (BitVec.ofNat 16 (8 * i))]
        rfl
      have hcell : p + (i + 1) = p + 1 + i := by omega
      have hleft : n - 8 - 8 * i = n - 8 * (i + 1) := by omega
      rw [hcell, ih _ _ _ _ _ (by omega), hoff, hleft]

theorem readBits_congr {buf buf' : ℕ → U8} {p : ℕ} (tbl : ℕ → U8) (off : U16) (n rounds : ℕ)
    (h : ∀ j < p, buf' j = buf j) {j : ℕ} (hj : j < p + rounds) :
    readBits tbl off n buf' p rounds j = readBits tbl off n buf p rounds j := by
  by_cases hp : j < p
  · rw [readBits_outside _ _ _ _ _ _ _ (Or.inl hp), readBits_outside _ _ _ _ _ _ _ (Or.inl hp), h j hp]
  · obtain ⟨i, rfl⟩ : ∃ i, j = p + i := ⟨j - p, by omega⟩
    rw [readBits_inside _ _ _ _ _ _ _ (by omega), readBits_inside _ _ _ _ _ _ _ (by omega)]

/-- Bit `k` of the data a read puts into the frame is element `off + k` of the table, or
zero above the quantity. -/
theorem readBits_getLsbD (tbl : ℕ → U8) (off : U16) (n : ℕ) (buf : ℕ → U8) (p : ℕ) {k : ℕ}
    (hk : k < 8 * ((n + 7) / 8)) (hoff : off.toNat + n ≤ 2 ^ 16) :
    (readBits tbl off n buf p ((n + 7) / 8) (p + k / 8)).getLsbD (k % 8) =
      (decide (k < n) && bitAt tbl (off.toNat + k)) := by
  have hleft : k % 8 < bitsLeft (n - 8 * (k / 8)) ↔ k < n := by
    rw [bitsLeft]
    split_ifs <;> omega
  rw [readBits_inside _ _ _ _ _ _ _ (by omega), xMBUtilGetBits_getLsbD _ _ (by omega)]
  simp only [hleft]
  by_cases hkn : k < n
  · have hidx : (off + BitVec.ofNat 16 (8 * (k / 8))).toNat + k % 8 = off.toNat + k := by
      rw [BitVec.toNat_add, BitVec.toNat_ofNat]
      omega
    rw [hidx]
  · simp [hkn]

theorem readBits_bitAt (tbl : ℕ → U8) (off : U16) (n : ℕ) (buf : ℕ → U8) (p k : ℕ)
    (hk : k < n) (hoff : off.toNat + n ≤ 2 ^ 16) :
    (readBits tbl off n buf p ((n + 7) / 8) (p + k / 8)).getLsbD (k % 8) =
      bitAt tbl (off.toNat + k) := by
  rw [readBits_getLsbD tbl off n buf p (by omega) hoff, decide_eq_true hk, Bool.true_and]

theorem writeBits_congr {buf buf' : ℕ → U8} {p rounds : ℕ} (tbl : ℕ → U8) (off : U16) (n : ℕ)
    (h : ∀ j, p ≤ j → j < p + rounds → buf j = buf' j) :
    writeBits tbl off n buf p rounds = writeBits tbl off n buf' p rounds := by
  induction rounds generalizing tbl n p with
  | zero => rfl
  | succ rounds ih =>
    rw [writeBits, writeBits, h p le_rfl (by omega)]
    exact ih _ _ fun j h1 h2 => h j (by omega) (by omega)

/-- The write loop seen from its last round. -/
theorem writeBits_succ (tbl : ℕ → U8) (off : U16) (n : ℕ) (buf : ℕ → U8) (p rounds : ℕ) :
    writeBits tbl off n buf p (rounds + 1) =
      xMBUtilSetBits (writeBits tbl off n buf p rounds) off (bitsLeft (n - 8 * rounds))
        (buf (p + rounds)) := by
  induction rounds generalizing tbl n p with
  | zero => rfl
  | succ rounds ih =>
    rw [writeBits, ih, ← writeBits]
    have hcell : p + 1 + rounds = p + (rounds + 1) := by omega
    have hleft : n - 8 - 8 * rounds = n - 8 * (rounds + 1) := by omega
    rw [hcell, hleft]

theorem wordBuf_update (tbl : ℕ → U8) (k : ℕ) (w : U16) :
    wordBuf (Function.update (Function.update tbl k (loByte w)) (k + 1) (hiByte w)) k = w := by
  rw [wordBuf, Function.update_self, Function.update_of_ne (by omega), Function.update_self,
    be16_split]

/-- The bits of the window below the offset are kept, the `n` bits from there on are those
of the value, and the bits of the value above these are or-ed in. -/
theorem bitAt_setBits (tbl : ℕ → U8) (off : U16) (n : ℕ) (v : U8) (k : ℕ) :
    bitAt (xMBUtilSetBits tbl off n v) k =
      if off.toNat ≤ k ∧ k < 8 * (off.toNat / 8) + 16 then
        if k - off.toNat < n then v.getLsbD (k - off.toNat)
        else bitAt tbl k || v.getLsbD (k - off.toNat)
      else bitAt tbl k := by
  have hpre : off.toNat - off.toNat / 8 * 8 = off.toNat % 8 := by omega
  unfold xMBUtilSetBits
  simp only [hpre]
  generalize hw : (wordBuf tbl (off.toNat / 8) &&& ~~~(bitMask n <<< (off.toNat % 8)) |||
    v.setWidth 16 <<< (off.toNat % 8)) = w
  by_cases hin : 8 * (off.toNat / 8) ≤ k ∧ k < 8 * (off.toNat / 8) + 16
  · obtain ⟨j, hj, rfl⟩ : ∃ j, j < 16 ∧ k = 8 * (off.toNat / 8) + j :=
      ⟨k - 8 * (off.toNat / 8), by omega, by omega⟩
    rw [← wordBuf_getLsbD _ _ j hj, wordBuf_update, ← wordBuf_getLsbD tbl _ j hj, ← hw]
    simp only [BitVec.getLsbD_or, BitVec.getLsbD_and, BitVec.getLsbD_not, BitVec.getLsbD_shiftLeft,
      BitVec.getLsbD_setWidth]
    by_cases hoff : off.toNat ≤ 8 * (off.toNat / 8) + j
    · have hsub : 8 * (off.toNat / 8) + j - off.toNat = j - off.toNat % 8 := by omega
      have hge : ¬ j < off.toNat % 8 := by omega
      rw [if_pos ⟨hoff, by omega⟩, hsub, bitMask_getLsbD (by omega)]
      by_cases hn : j - off.toNat % 8 < n <;> simp [hj, hge, hn, show j - off.toNat % 8 < 16 by omega]
    · have hlt : j < off.toNat % 8 := by omega
      rw [if_neg fun h => hoff h.1]
      simp [hj, hlt]
  · rw [if_neg (by omega)]
    unfold bitAt
    rw [Function.update_of_ne (by omega), Function.update_of_ne (by omega)]

/-- The first bit written is the lowest bit of the value. -/
theorem xMBUtilSetBits_bitAt (tbl : ℕ → U8) (off : U16) {n : ℕ} (hn : 0 < n) (v : U8) :
    bitAt (xMBUtilSetBits tbl off n v) off.toNat = v.getLsbD 0 := by
  rw [bitAt_setBits, if_pos (by omega), Nat.sub_self, if_pos hn]

end Stm32F407
