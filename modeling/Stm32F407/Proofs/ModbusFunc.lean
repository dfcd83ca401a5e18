import Stm32F407.Proofs.ModbusRegs

/-! One equation for each callback, each function handler and the dispatch of
`eMBPoll`, with the address arithmetic and the loops resolved. -/

namespace Stm32F407

open Lib

variable {sz : RegSizes} {s : Slave} {frame : ℕ → U8}

theorem holdingCB_read (r : Regs) (buf : ℕ → U8) (p : ℕ) (a n : U16) :
    eMBRegHoldingCB sz r buf p (a + 1) n .read =
      if a.toNat + n.toNat ≤ sz.holdingNRegs then
        (.noErr, blit buf p (regBytes (slice r.usRegHoldingBuf a.toNat n.toNat)), r)
      else (.noReg, buf, r) := by
  simp only [eMBRegHoldingCB, BitVec.add_sub_cancel, readRegs_eq]

theorem holdingCB_write (r : Regs) (buf : ℕ → U8) (p : ℕ) (a n : U16) :
    eMBRegHoldingCB sz r buf p (a + 1) n .write =
      if a.toNat + n.toNat ≤ sz.holdingNRegs then
        (.noErr, buf, { r with
          usRegHoldingBuf := blit r.usRegHoldingBuf a.toNat (regVals buf p n.toNat) })
      else (.noReg, buf, r) := by
  simp only [eMBRegHoldingCB, BitVec.add_sub_cancel, writeRegs_eq]

theorem toInt_nonneg_iff (a : U16) : 0 ≤ a.toInt ↔ a.toNat < 2 ^ 15 := by
  rw [BitVec.toInt_eq_toNat_cond]
  have h := a.isLt
  split_ifs <;> omega

theorem coilsCB_read (r : Regs) (buf : ℕ → U8) (p : ℕ) (a n : U16) :
    eMBRegCoilsCB sz r buf p a n .read =
      if a.toNat < 2 ^ 15 ∧ a.toNat + n.toNat ≤ sz.coilsSize then
        (.noErr, readBits r.ucRegCoilsBuf a n.toInt.toNat buf p (bitRounds n), r)
      else (.noReg, buf, r) := by
  simp only [eMBRegCoilsCB, toInt_nonneg_iff]

theorem coilsCB_write (r : Regs) (buf : ℕ → U8) (p : ℕ) (a n : U16) :
    eMBRegCoilsCB sz r buf p a n .write =
      if a.toNat < 2 ^ 15 ∧ a.toNat + n.toNat ≤ sz.coilsSize then
        (.noErr, buf, { r with
          ucRegCoilsBuf := writeBits r.ucRegCoilsBuf a n.toInt.toNat buf p (bitRounds n) })
      else (.noReg, buf, r) := by
  simp only [eMBRegCoilsCB, toInt_nonneg_iff]

theorem discreteCB_eq (r : Regs) (buf : ℕ → U8) (p : ℕ) (a n : U16) :
    eMBRegDiscreteCB sz r buf p a n =
      if a.toNat < 2 ^ 15 ∧ a.toNat + n.toNat ≤ sz.discreteSize then
        (.noErr, readBits r.ucRegDiscreteBuf a n.toInt.toNat buf p (bitRounds n))
      else (.noReg, buf) := by
  simp only [eMBRegDiscreteCB, toInt_nonneg_iff]

theorem inputCB_eq (r : Regs) (buf : ℕ → U8) (p : ℕ) (a n : U16) :
    eMBRegInputCB sz r buf p a n =
      if a.toNat + n.toNat ≤ sz.inputNRegs then
        (.noErr, blit buf p (regBytes (slice r.usRegInputBuf a.toNat n.toNat)))
      else (.noReg, buf) := by
  simp only [eMBRegInputCB, readRegs_eq]

theorem writeHolding_eq (sz : RegSizes) (s : Slave) (f : ℕ → U8) (len : U16) :
    eMBFuncWriteHoldingRegister sz s f len =
      if len = 5 then
        if (pduWord f 1).toNat + 1 ≤ sz.holdingNRegs then
          ⟨.none, f, len, { s.regs with
            usRegHoldingBuf := blit s.regs.usRegHoldingBuf (pduWord f 1).toNat (regVals f 3 1) }⟩
        else ⟨.illegalDataAddress, f, len, s.regs⟩
      else ⟨.illegalDataValue, f, len, s.regs⟩ := by
  have hone : (1 : U16).toNat = 1 := rfl
  unfold eMBFuncWriteHoldingRegister
  by_cases hlen : len = 5
  · by_cases hin : (pduWord f 1).toNat + 1 ≤ sz.holdingNRegs <;>
      simp only [if_pos hlen, holdingCB_write, hone, hin] <;> rfl
  · rw [if_neg hlen, if_neg hlen]

def WriteMultipleChecks (f : ℕ → U8) (len : U16) : Prop :=
  6 ≤ len ∧ 1 ≤ pduWord f 3 ∧ pduWord f 3 ≤ 0x0078 ∧ f 5 = (2 * pduWord f 3).setWidth 8

instance (f : ℕ → U8) (len : U16) : Decidable (WriteMultipleChecks f len) :=
  inferInstanceAs (Decidable (_ ∧ _))

theorem writeMultiple_eq (sz : RegSizes) (s : Slave) (f : ℕ → U8) (len : U16) :
    eMBFuncWriteMultipleHoldingRegister sz s f len =
      if WriteMultipleChecks f len then
        if (pduWord f 1).toNat + (pduWord f 3).toNat ≤ sz.holdingNRegs then
          ⟨.none, f, 5, { s.regs with
            usRegHoldingBuf := blit s.regs.usRegHoldingBuf (pduWord f 1).toNat
              (regVals f 6 (pduWord f 3).toNat) }⟩
        else ⟨.illegalDataAddress, f, len, s.regs⟩
      else ⟨.illegalDataValue, f, len, s.regs⟩ := by
  unfold eMBFuncWriteMultipleHoldingRegister
  by_cases hchk : WriteMultipleChecks f len
  · obtain ⟨hlen, hcnt⟩ := id hchk
    by_cases hin : (pduWord f 1).toNat + (pduWord f 3).toNat ≤ sz.holdingNRegs <;>
      simp only [if_pos hchk, if_pos hlen, if_pos hcnt, holdingCB_write, hin] <;> rfl
  · rw [if_neg hchk]
    by_cases hlen : 6 ≤ len
    · rw [if_pos hlen]
      exact if_neg fun hcnt => hchk ⟨hlen, hcnt⟩
    · rw [if_neg hlen]

def readHoldingCount (f : ℕ → U8) : U16 := (f 4).setWidth 16

def ReadHoldingChecks (f : ℕ → U8) (len : U16) : Prop :=
  len = 5 ∧ 1 ≤ readHoldingCount f ∧ readHoldingCount f ≤ 0x007D

instance (f : ℕ → U8) (len : U16) : Decidable (ReadHoldingChecks f len) :=
  inferInstanceAs (Decidable (_ ∧ _))

theorem readHolding_eq (sz : RegSizes) (s : Slave) (f : ℕ → U8) (len : U16) :
    eMBFuncReadHoldingRegister sz s f len =
      if ReadHoldingChecks f len then
        if (pduWord f 1).toNat + (readHoldingCount f).toNat ≤ sz.holdingNRegs then
          ⟨.none, blit f 0 (3 :: (readHoldingCount f * 2).setWidth 8 ::
              regBytes (slice s.regs.usRegHoldingBuf (pduWord f 1).toNat (readHoldingCount f).toNat)),
            2 + readHoldingCount f * 2, s.regs⟩
        else ⟨.illegalDataAddress, blit f 0 [3, (readHoldingCount f * 2).setWidth 8], 2, s.regs⟩
      else ⟨.illegalDataValue, f, len, s.regs⟩ := by
  have hcount : (f 4).setWidth 16 = readHoldingCount f := rfl
  unfold eMBFuncReadHoldingRegister
  simp only [hcount]
  by_cases hchk : ReadHoldingChecks f len
  · obtain ⟨hlen, hcnt⟩ := id hchk
    by_cases hin : (pduWord f 1).toNat + (readHoldingCount f).toNat ≤ sz.holdingNRegs <;>
      simp only [if_pos hchk, if_pos hlen, if_pos hcnt, holdingCB_read, hin] <;> rfl
  · rw [if_neg hchk]
    by_cases hlen : len = 5
    · rw [if_pos hlen]
      exact if_neg fun hcnt => hchk ⟨hlen, hcnt⟩
    · rw [if_neg hlen]

def ReadWriteChecks (f : ℕ → U8) : Prop :=
  (1 ≤ pduWord f 3 ∧ pduWord f 3 ≤ 0x7D) ∧ (1 ≤ pduWord f 7 ∧ pduWord f 7 ≤ 0x79) ∧
    2 * (pduWord f 7).toNat = (f 9).toNat

instance (f : ℕ → U8) : Decidable (ReadWriteChecks f) := inferInstanceAs (Decidable (_ ∧ _))

def readWriteTable (tbl : ℕ → U16) (f : ℕ → U8) : ℕ → U16 :=
  blit tbl (pduWord f 5).toNat (regVals f 10 (pduWord f 7).toNat)

theorem readWrite_eq (sz : RegSizes) (s : Slave) (f : ℕ → U8) (len : U16) :
    eMBFuncReadWriteMultipleHoldingRegister sz s f len =
      let tbl := readWriteTable s.regs.usRegHoldingBuf f
      if 10 ≤ len then
        if ReadWriteChecks f then
          if (pduWord f 5).toNat + (pduWord f 7).toNat ≤ sz.holdingNRegs then
            if (pduWord f 1).toNat + (pduWord f 3).toNat ≤ sz.holdingNRegs then
              ⟨.none, blit f 0 (23 :: (pduWord f 3 * 2).setWidth 8 ::
                  regBytes (slice tbl (pduWord f 1).toNat (pduWord f 3).toNat)),
                2 + 2 * pduWord f 3, { s.regs with usRegHoldingBuf := tbl }⟩
            else ⟨.illegalDataAddress, blit f 0 [23, (pduWord f 3 * 2).setWidth 8], 2,
              { s.regs with usRegHoldingBuf := tbl }⟩
          else ⟨.illegalDataAddress, f, len, s.regs⟩
        else ⟨.illegalDataValue, f, len, s.regs⟩
      else ⟨.none, f, len, s.regs⟩ := by
  unfold eMBFuncReadWriteMultipleHoldingRegister
  by_cases hlen : 10 ≤ len
  · by_cases hchk : ReadWriteChecks f
    · have hcnt := hchk
      unfold ReadWriteChecks at hcnt
      by_cases hw : (pduWord f 5).toNat + (pduWord f 7).toNat ≤ sz.holdingNRegs
      · by_cases hr : (pduWord f 1).toNat + (pduWord f 3).toNat ≤ sz.holdingNRegs <;>
          simp only [if_pos hlen, if_pos hchk, if_pos hcnt, holdingCB_write, holdingCB_read, hw, hr] <;>
          rfl
      · simp only [if_pos hlen, if_pos hchk, if_pos hcnt, holdingCB_write, hw]
        rfl
    · simp only [if_pos hlen, if_neg hchk]
      exact if_neg hchk
  · simp only [if_neg hlen]

def WriteCoilChecks (f : ℕ → U8) : Prop := f 4 = 0x00 ∧ (f 3 = 0xFF ∨ f 3 = 0x00)

instance (f : ℕ → U8) : Decidable (WriteCoilChecks f) := inferInstanceAs (Decidable (_ ∧ _))

def coilBuf (f : ℕ → U8) : ℕ → U8 := fun i => if i = 0 ∧ f 3 = 0xFF then 1 else 0

theorem writeCoil_eq (sz : RegSizes) (s : Slave) (f : ℕ → U8) (len : U16) :
    eMBFuncWriteCoil sz s f len =
      if len = 5 then
        if WriteCoilChecks f then
          if (pduWord f 1 + 1).toNat < 2 ^ 15 ∧ (pduWord f 1 + 1).toNat + 1 ≤ sz.coilsSize then
            ⟨.none, f, len, { s.regs with
              ucRegCoilsBuf := writeBits s.regs.ucRegCoilsBuf (pduWord f 1 + 1) 1 (coilBuf f) 0 1 }⟩
          else ⟨.illegalDataAddress, f, len, s.regs⟩
        else ⟨.illegalDataValue, f, len, s.regs⟩
      else ⟨.illegalDataValue, f, len, s.regs⟩ := by
  have hone : (1 : U16).toNat = 1 := rfl
  unfold eMBFuncWriteCoil
  by_cases hlen : len = 5
  · by_cases hchk : WriteCoilChecks f
    · have hval := hchk
      unfold WriteCoilChecks at hval
      by_cases hin : (pduWord f 1 + 1).toNat < 2 ^ 15 ∧ (pduWord f 1 + 1).toNat + 1 ≤ sz.coilsSize <;>
        simp only [if_pos hlen, if_pos hchk, if_pos hval, coilsCB_write, hone, hin] <;> rfl
    · simp only [if_pos hlen, if_neg hchk]
      exact if_neg hchk
  · rw [if_neg hlen, if_neg hlen]

def WriteCoilsChecks (f : ℕ → U8) : Prop :=
  1 ≤ pduWord f 3 ∧ pduWord f 3 ≤ 0x07B0 ∧ coilBytes (pduWord f 3) = f 5

instance (f : ℕ → U8) : Decidable (WriteCoilsChecks f) := inferInstanceAs (Decidable (_ ∧ _))

theorem writeCoils_eq (sz : RegSizes) (s : Slave) (f : ℕ → U8) (len : U16) :
    eMBFuncWriteMultipleCoils sz s f len =
      if 5 < len then
        if WriteCoilsChecks f then
          if (pduWord f 1 + 1).toNat < 2 ^ 15 ∧
              (pduWord f 1 + 1).toNat + (pduWord f 3).toNat ≤ sz.coilsSize then
            ⟨.none, f, 5, { s.regs with
              ucRegCoilsBuf := writeBits s.regs.ucRegCoilsBuf (pduWord f 1 + 1)
                (pduWord f 3).toInt.toNat f 6 (bitRounds (pduWord f 3)) }⟩
          else ⟨.illegalDataAddress, f, len, s.regs⟩
        else ⟨.illegalDataValue, f, len, s.regs⟩
      else ⟨.illegalDataValue, f, len, s.regs⟩ := by
  unfold eMBFuncWriteMultipleCoils
  by_cases hlen : 5 < len
  · by_cases hchk : WriteCoilsChecks f
    · have hcnt := hchk
      unfold WriteCoilsChecks at hcnt
      by_cases hin : (pduWord f 1 + 1).toNat < 2 ^ 15 ∧
          (pduWord f 1 + 1).toNat + (pduWord f 3).toNat ≤ sz.coilsSize <;>
        simp only [if_pos hlen, if_pos hchk, if_pos hcnt, coilsCB_write, hin] <;> rfl
    · simp only [if_pos hlen, if_neg hchk]
      exact if_neg hchk
  · rw [if_neg hlen, if_neg hlen]

theorem coilBytes_toNat {n : U16} (hn : n.toNat ≤ 1999) : (coilBytes n).toNat = (n.toNat + 7) / 8 := by
  have hlow : (n &&& 0x0007).toNat = n.toNat % 2 ^ 3 := by
    rw [BitVec.toNat_and, ← Nat.and_two_pow_sub_one_eq_mod]
    rfl
  have h8 : (n / 8).toNat = n.toNat / 8 := BitVec.toNat_udiv
  have h1 : (1 : U16).toNat = 1 := rfl
  unfold coilBytes
  split_ifs with hlast
  · have hne : n.toNat % 8 ≠ 0 := by
      intro h0
      exact hlast (BitVec.eq_of_toNat_eq (hlow.trans h0))
    rw [BitVec.toNat_setWidth, BitVec.toNat_add, h8, h1]
    omega
  · have h0 : n.toNat % 8 = 0 := by
      rw [not_not] at hlast
      have h := congrArg BitVec.toNat hlast
      rw [hlow] at h
      exact h
    rw [BitVec.toNat_setWidth, h8]
    omega

theorem coilReply_length {n : U16} (hn : n.toNat ≤ 1999) :
    (2 + (coilBytes n).setWidth 16 : U16).toNat = 2 + (n.toNat + 7) / 8 := by
  have h2 : (2 : U16).toNat = 2 := rfl
  rw [BitVec.toNat_add, BitVec.toNat_setWidth, coilBytes_toNat hn, h2]
  omega

theorem byteCount_eq (n : U16) : (n * 2).setWidth 8 = BitVec.ofNat 8 (2 * n.toNat) := by
  apply BitVec.eq_of_toNat_eq
  have h2 : (2 : U16).toNat = 2 := rfl
  rw [BitVec.toNat_setWidth, BitVec.toNat_mul, BitVec.toNat_ofNat, h2]
  omega

theorem replyLength_eq {n : U16} (h : n.toNat ≤ 125) : (2 + n * 2).toNat = 2 + 2 * n.toNat := by
  have h2 : (2 : U16).toNat = 2 := rfl
  rw [BitVec.toNat_add, BitVec.toNat_mul, h2]
  omega

theorem errorFrame_of_none {fc : U8} {r : HandlerResult} (h : r.eStatus = .none) :
    errorFrame fc r = r := by
  rw [errorFrame, if_neg (not_not_intro h)]

theorem errorFrame_reply {fc : U8} {r : HandlerResult} (h : r.eStatus ≠ .none) :
    (errorFrame fc r).reply = [fc ||| 128, r.eStatus.code] := by
  rw [errorFrame, if_pos h]
  rfl

@[simp] theorem errorFrame_regs (fc : U8) (r : HandlerResult) : (errorFrame fc r).regs = r.regs := by
  unfold errorFrame
  split_ifs <;> rfl

theorem dispatch_of_find {fc : U8} {h : U8 × ((ℕ → U8) → U16 → HandlerResult)} (hfc : frame 0 = fc)
    (hfind : (xFuncHandlers sz s).find? (fun h => h.1 = fc) = some h) (len : U16) :
    dispatch sz s frame len = h.2 frame len := by
  unfold dispatch
  rw [hfc, hfind]

/-- A PDU goes to the table entry of its function code, or to none. -/
theorem dispatch_cases (sz : RegSizes) (s : Slave) (fc : U8) :
    (∃ h ∈ xFuncHandlers sz s, h.1 = fc ∧
      ∀ f len, f 0 = fc → dispatch sz s f len = h.2 f len) ∨
    (∀ f len, f 0 = fc → dispatch sz s f len = ⟨.illegalFunction, f, len, s.regs⟩) := by
  cases hfind : (xFuncHandlers sz s).find? (fun h => h.1 = fc) with
  | some h =>
    have hcode : h.1 = fc := by simpa using List.find?_some hfind
    exact Or.inl ⟨h, List.mem_of_find?_eq_some hfind, hcode,
      fun f len hf => dispatch_of_find hf hfind len⟩
  | none =>
    refine Or.inr fun f len hf => ?_
    unfold dispatch
    rw [hf, hfind]

end Stm32F407
