import Stm32F407.Proofs.ModbusFunc

/-! What a request may do: an exception reply leaves the tables as they were except
in the read half of a read/write request, and what lies in the buffer behind the
request matters only to writes whose data run past its end. -/

namespace Stm32F407

open Lib

def ExceptionKeepsRegs (sz : RegSizes) (s : Slave) (f : ℕ → U8) (len : U16) : Prop :=
  (dispatch sz s f len).eStatus ≠ .none → (execute sz s f len).regs = s.regs

/-- A read/write request whose write half is served and changes a register, and
whose read half leaves the table. -/
def WritesThenFails (sz : RegSizes) (r : Regs) (f : ℕ → U8) (len : U16) : Prop :=
  f 0 = 23 ∧ 10 ≤ len ∧ ReadWriteChecks f ∧
    (pduWord f 5).toNat + (pduWord f 7).toNat ≤ sz.holdingNRegs ∧
    sz.holdingNRegs < (pduWord f 1).toNat + (pduWord f 3).toNat ∧
    ∃ i < (pduWord f 7).toNat, pduWord f (10 + 2 * i) ≠ r.usRegHoldingBuf ((pduWord f 5).toNat + i)

def KeepsRegs (s : Slave) (h : (ℕ → U8) → U16 → HandlerResult) : Prop :=
  ∀ f len, (h f len).eStatus ≠ .none → (h f len).regs = s.regs

theorem readRequest_regs (fc : U8) (max : U16) (nBytes : U16 → U8) (grow : U16 → U16)
    (cb : (ℕ → U8) → ℕ → U16 → U16 → EMBErrorCode × (ℕ → U8)) (s : Slave) (f : ℕ → U8) (len : U16) :
    (readRequest fc max nBytes grow cb s f len).regs = s.regs := by
  unfold readRequest
  simp only
  split_ifs <;> rfl

theorem handlers_keepRegs (sz : RegSizes) (s : Slave) :
    ∀ h ∈ xFuncHandlers sz s, h.1 ≠ 23 → KeepsRegs s h.2 := by
  intro h hmem h23 f len hex
  simp only [xFuncHandlers, List.mem_cons, List.not_mem_nil, or_false] at hmem
  rcases hmem with rfl | rfl | rfl | rfl | rfl | rfl | rfl | rfl | rfl | rfl
  · rfl
  · exact readRequest_regs ..
  · simp only [readHolding_eq] at hex ⊢
    split_ifs <;> rfl
  · simp only [writeMultiple_eq] at hex ⊢
    split_ifs at hex ⊢ <;> first | rfl | exact absurd rfl hex
  · simp only [writeHolding_eq] at hex ⊢
    split_ifs at hex ⊢ <;> first | rfl | exact absurd rfl hex
  · exact absurd rfl h23
  · exact readRequest_regs ..
  · simp only [writeCoil_eq] at hex ⊢
    split_ifs at hex ⊢ <;> first | rfl | exact absurd rfl hex
  · simp only [writeCoils_eq] at hex ⊢
    split_ifs at hex ⊢ <;> first | rfl | exact absurd rfl hex
  · exact readRequest_regs ..

theorem setHolding_eq_iff {r : Regs} {tbl : ℕ → U16} :
    ({ r with usRegHoldingBuf := tbl } : Regs) = r ↔ tbl = r.usRegHoldingBuf := by
  refine ⟨fun h => congrArg Regs.usRegHoldingBuf h, ?_⟩
  rintro rfl
  rfl

theorem readWriteTable_eq_iff {tbl : ℕ → U16} {f : ℕ → U8} :
    readWriteTable tbl f = tbl ↔
      ∀ i < (pduWord f 7).toNat, pduWord f (10 + 2 * i) = tbl ((pduWord f 5).toNat + i) := by
  rw [readWriteTable, blit_eq_self_iff]
  simp only [regVals_length, regVals_getElem]

theorem exceptionKeepsRegs_readWrite (sz : RegSizes) (s : Slave) (f : ℕ → U8) (len : U16)
    (hfc : f 0 = 23) :
    ExceptionKeepsRegs sz s f len ↔ ¬ WritesThenFails sz s.regs f len := by
  have hd := (dispatch_of_find hfc rfl len).trans (readWrite_eq sz s f len)
  simp only [ExceptionKeepsRegs, execute, errorFrame_regs, WritesThenFails, hfc, true_and, hd]
  split_ifs with hlen hchk hw hr
  · simp only [ne_eq, not_true, false_imp_iff, true_iff]
    rintro ⟨-, -, -, hout, -⟩
    omega
  · rw [setHolding_eq_iff, readWriteTable_eq_iff]
    refine ⟨fun h hbad => ?_, fun h _ i hi => ?_⟩
    · obtain ⟨-, -, -, -, i, hi, hne⟩ := hbad
      exact hne (h nofun i hi)
    · by_contra hne
      exact h ⟨hlen, hchk, hw, by omega, i, hi, hne⟩
  · refine ⟨fun _ h => ?_, fun _ _ => rfl⟩
    exact hw h.2.2.1
  · refine ⟨fun _ h => ?_, fun _ _ => rfl⟩
    exact hchk h.2.1
  · refine ⟨fun _ h => ?_, fun _ _ => rfl⟩
    exact hlen h.1

/-- For every request and every contents of the tables: an exception reply means that
nothing was changed, unless it is a read/write request that wrote and then failed. -/
theorem exceptionKeepsRegs_iff (sz : RegSizes) (s : Slave) (f : ℕ → U8) (len : U16) :
    ExceptionKeepsRegs sz s f len ↔ ¬ WritesThenFails sz s.regs f len := by
  by_cases hfc : f 0 = 23
  · exact exceptionKeepsRegs_readWrite sz s f len hfc
  refine ⟨fun _ h => hfc h.1, fun _ hex => ?_⟩
  rw [execute, errorFrame_regs]
  rcases dispatch_cases sz s (f 0) with ⟨h, hmem, hcode, hd⟩ | hd
  · rw [hd f len rfl] at hex ⊢
    exact handlers_keepRegs sz s h hmem (by rwa [hcode]) f len hex
  · rw [hd f len rfl]

/-- Function code 23 writing register 0 and reading register 8 of the table of
`modbus.c`: exception 02, and register 0 is overwritten. -/
theorem not_exceptionKeepsRegs :
    ¬ ∀ (sz : RegSizes) (s : Slave) (f : ℕ → U8) (len : U16), ExceptionKeepsRegs sz s f len := by
  intro hall
  have h := hall regSizes Slave.start
    (blit (fun _ => 0) 0 [23, 0, 8, 0, 1, 0, 0, 0, 1, 2, 0xBE, 0xEF]) 12 (by decide)
  have hcell := congrArg (fun r : Regs => r.usRegHoldingBuf 0) h
  exact absurd hcell (by decide)

/-- The buffer behind the `len` bytes of the request has no influence on the reply
nor on the tables. -/
def DependsOnReceived (sz : RegSizes) (s : Slave) (f : ℕ → U8) (len : U16) : Prop :=
  ∀ g : ℕ → U8, (∀ i < len.toNat, g i = f i) →
    (execute sz s g len).reply = (execute sz s f len).reply ∧
      (execute sz s g len).regs = (execute sz s f len).regs

/-- A write that is served although its data do not fit into the request. -/
def Overruns (sz : RegSizes) (f : ℕ → U8) (len : U16) : Prop :=
  (f 0 = 16 ∧ WriteMultipleChecks f len ∧
    (pduWord f 1).toNat + (pduWord f 3).toNat ≤ sz.holdingNRegs ∧
    len.toNat < 6 + 2 * (pduWord f 3).toNat) ∨
  (f 0 = 15 ∧ 5 < len ∧ WriteCoilsChecks f ∧
    ((pduWord f 1 + 1).toNat < 2 ^ 15 ∧
      (pduWord f 1 + 1).toNat + (pduWord f 3).toNat ≤ sz.coilsSize) ∧
    len.toNat < 6 + bitRounds (pduWord f 3)) ∨
  (f 0 = 23 ∧ 10 ≤ len ∧ ReadWriteChecks f ∧
    (pduWord f 5).toNat + (pduWord f 7).toNat ≤ sz.holdingNRegs ∧
    len.toNat < 10 + 2 * (pduWord f 7).toNat)

structure SameResult (r r' : HandlerResult) : Prop where
  eStatus : r'.eStatus = r.eStatus
  usLen : r'.usLen = r.usLen
  regs : r'.regs = r.regs
  frame : r.eStatus = .none → ∀ j < r.usLen.toNat, r'.frame j = r.frame j

theorem SameResult.errorFrame {r r' : HandlerResult} (h : SameResult r r') (fc : U8) :
    (errorFrame fc r').reply = (errorFrame fc r).reply ∧
      (errorFrame fc r').regs = (errorFrame fc r).regs := by
  refine ⟨?_, by rw [errorFrame_regs, errorFrame_regs, h.regs]⟩
  by_cases hex : r.eStatus = .none
  · rw [errorFrame_of_none hex, errorFrame_of_none (h.eStatus.trans hex), HandlerResult.reply,
      HandlerResult.reply, h.usLen]
    refine slice_congr fun i hi => ?_
    rw [Nat.zero_add]
    exact h.frame hex i hi
  · rw [errorFrame_reply hex, errorFrame_reply (by rwa [h.eStatus]), h.eStatus]

def LocalAt (sz : RegSizes) (h : (ℕ → U8) → U16 → HandlerResult) (fc : U8) : Prop :=
  ∀ f g len, 1 ≤ len.toNat → (∀ i < len.toNat, g i = f i) → f 0 = fc → ¬ Overruns sz f len →
    SameResult (h f len) (h g len)

theorem pduWord_congr {f g : ℕ → U8} {n : ℕ} (hfg : ∀ i < n, g i = f i) {k : ℕ} (hk : k + 1 < n) :
    pduWord g k = pduWord f k := by
  rw [pduWord, pduWord, hfg k (by omega), hfg (k + 1) hk]

theorem error2Exception_ne {e : EMBErrorCode} (h : e ≠ .noErr) : prveMBError2Exception e ≠ .none := by
  cases e <;> first | exact absurd rfl h | nofun

theorem readRequest_local {sz : RegSizes} {fc code : U8} {max : U16} {nBytes : U16 → U8}
    {grow : U16 → U16} {cb : (ℕ → U8) → ℕ → U16 → U16 → EMBErrorCode × (ℕ → U8)} {s : Slave}
    (hcode : ∀ buf buf' a n, (cb buf' 2 a n).1 = (cb buf 2 a n).1)
    (hdata : ∀ buf buf' a n, n < max → (∀ j < 2, buf' j = buf j) → (cb buf 2 a n).1 = .noErr →
      ∀ j < (2 + grow n).toNat, (cb buf' 2 a n).2 j = (cb buf 2 a n).2 j) :
    LocalAt sz (readRequest fc max nBytes grow cb s) code := by
  intro f g len hpos hfg _ _
  unfold readRequest
  by_cases hlen : len = 5
  · subst hlen
    have hword : ∀ k, k + 1 < 5 → pduWord g k = pduWord f k := fun k hk => pduWord_congr hfg hk
    rw [if_pos rfl, if_pos rfl, hword 1 (by decide), hword 3 (by decide)]
    by_cases hn : 1 ≤ pduWord f 3 ∧ pduWord f 3 < max
    · simp only [if_pos hn]
      have hhead : ∀ j < 2, Function.update (Function.update g 0 fc) 1 (nBytes (pduWord f 3)) j =
          Function.update (Function.update f 0 fc) 1 (nBytes (pduWord f 3)) j := by
        intro j hj
        obtain rfl | rfl : j = 0 ∨ j = 1 := by omega
        · rfl
        · rfl
      have hc := hcode (Function.update (Function.update f 0 fc) 1 (nBytes (pduWord f 3)))
        (Function.update (Function.update g 0 fc) 1 (nBytes (pduWord f 3))) (pduWord f 1 + 1) (pduWord f 3)
      rw [hc]
      split_ifs with herr
      · exact ⟨rfl, rfl, rfl, fun hnone => absurd hnone (error2Exception_ne herr)⟩
      · exact ⟨rfl, rfl, rfl, fun _ => hdata _ _ _ _ hn.2 hhead (not_not.mp herr)⟩
    · simp only [if_neg hn]
      exact ⟨rfl, rfl, rfl, nofun⟩
  · rw [if_neg hlen, if_neg hlen]
    exact ⟨rfl, rfl, rfl, nofun⟩

theorem readCoils_local (sz : RegSizes) (s : Slave) (fc : U8) : LocalAt sz (eMBFuncReadCoils sz s) fc := by
  refine readRequest_local ?_ ?_
  · intro buf buf' a n
    simp only [coilsCB_read]
    split_ifs <;> rfl
  · intro buf buf' a n hn hhead hok j hj
    have hmax : n.toNat ≤ 1999 := Nat.le_of_lt_succ (BitVec.lt_def.mp hn)
    obtain ⟨-, hrounds⟩ := bitRounds_eq (n := n) (by omega)
    rw [coilReply_length hmax] at hj
    simp only [coilsCB_read] at hok ⊢
    split_ifs at hok ⊢
    exact readBits_congr _ _ _ _ hhead (by rwa [hrounds])

theorem readDiscrete_local (sz : RegSizes) (s : Slave) (fc : U8) :
    LocalAt sz (eMBFuncReadDiscreteInputs sz s) fc := by
  refine readRequest_local ?_ ?_
  · intro buf buf' a n
    simp only [discreteCB_eq]
    split_ifs <;> rfl
  · intro buf buf' a n hn hhead hok j hj
    have hmax : n.toNat ≤ 1999 := Nat.le_of_lt_succ (BitVec.lt_def.mp hn)
    obtain ⟨-, hrounds⟩ := bitRounds_eq (n := n) (by omega)
    rw [coilReply_length hmax] at hj
    simp only [discreteCB_eq] at hok ⊢
    split_ifs at hok ⊢
    exact readBits_congr _ _ _ _ hhead (by rwa [hrounds])

theorem readInput_local (sz : RegSizes) (s : Slave) (fc : U8) :
    LocalAt sz (eMBFuncReadInputRegister sz s) fc := by
  refine readRequest_local ?_ ?_
  · intro buf buf' a n
    simp only [inputCB_eq]
    split_ifs <;> rfl
  · intro buf buf' a n hn hhead hok j hj
    have hlt : n.toNat < 125 := BitVec.lt_def.mp hn
    rw [replyLength_eq hlt.le] at hj
    simp only [inputCB_eq] at hok ⊢
    split_ifs at hok ⊢
    exact blit_congr _ hhead (by rwa [regBytes_length, slice_length])

theorem readHolding_local (sz : RegSizes) (s : Slave) (fc : U8) :
    LocalAt sz (eMBFuncReadHoldingRegister sz s) fc := by
  intro f g len _ hfg _ _
  rw [readHolding_eq, readHolding_eq]
  by_cases hlen : len = 5
  · subst hlen
    have hcount : readHoldingCount g = readHoldingCount f := by
      rw [readHoldingCount, readHoldingCount, hfg 4 (by decide)]
    have hchk : ReadHoldingChecks g 5 ↔ ReadHoldingChecks f 5 := by
      rw [ReadHoldingChecks, ReadHoldingChecks, hcount]
    rw [hcount, pduWord_congr (n := 5) hfg (by decide)]
    simp only [hchk]
    split_ifs with hc hin
    · refine ⟨rfl, rfl, rfl, fun _ j hj => blit_congr _ (fun i hi => absurd hi (Nat.not_lt_zero i)) ?_⟩
      simp only [replyLength_eq (BitVec.le_def.mp hc.2.2)] at hj
      simp only [List.length_cons, regBytes_length, slice_length]
      omega
    · exact ⟨rfl, rfl, rfl, nofun⟩
    · exact ⟨rfl, rfl, rfl, nofun⟩
  · rw [if_neg fun h => hlen h.1, if_neg fun h => hlen h.1]
    exact ⟨rfl, rfl, rfl, nofun⟩

theorem reportSlaveID_local (sz : RegSizes) (s : Slave) (fc : U8) :
    LocalAt sz (eMBFuncReportSlaveID s) fc := by
  intro f g len hpos hfg _ _
  refine ⟨rfl, rfl, rfl, fun _ j hj => blit_congr _ (fun i hi => hfg i (by omega)) ?_⟩
  have h1 : (1 : U16).toNat = 1 := rfl
  have hlen := Nat.mod_le (1 + s.usMBSlaveIDLen.toNat) (2 ^ 16)
  simp only [eMBFuncReportSlaveID, BitVec.toNat_add, h1] at hj
  rw [slice_length]
  omega

theorem writeHolding_local (sz : RegSizes) (s : Slave) (fc : U8) :
    LocalAt sz (eMBFuncWriteHoldingRegister sz s) fc := by
  intro f g len _ hfg _ _
  rw [writeHolding_eq, writeHolding_eq]
  by_cases hlen : len = 5
  · subst hlen
    have hvals : regVals g 3 1 = regVals f 3 1 :=
      regVals_congr fun j _ hj => hfg j (by change j < 5; omega)
    rw [if_pos rfl, if_pos rfl, pduWord_congr (n := 5) hfg (by decide), hvals]
    split_ifs
    · exact ⟨rfl, rfl, rfl, fun _ j hj => hfg j hj⟩
    · exact ⟨rfl, rfl, rfl, nofun⟩
  · rw [if_neg hlen, if_neg hlen]
    exact ⟨rfl, rfl, rfl, nofun⟩

theorem writeMultiple_local (sz : RegSizes) (s : Slave) :
    LocalAt sz (eMBFuncWriteMultipleHoldingRegister sz s) 16 := by
  intro f g len _ hfg hfc hfits
  rw [writeMultiple_eq, writeMultiple_eq]
  by_cases hlen : 6 ≤ len
  · have h6 : 6 ≤ len.toNat := BitVec.le_def.mp hlen
    have hcnt : pduWord g 3 = pduWord f 3 := pduWord_congr hfg (by omega)
    have hchk : WriteMultipleChecks g len ↔ WriteMultipleChecks f len := by
      rw [WriteMultipleChecks, WriteMultipleChecks, hcnt, hfg 5 (by omega)]
    rw [hcnt, pduWord_congr hfg (by omega : 1 + 1 < len.toNat)]
    simp only [hchk]
    split_ifs with hc hin
    · have hdata : 6 + 2 * (pduWord f 3).toNat ≤ len.toNat := by
        by_contra hover
        exact hfits (Or.inl ⟨hfc, hc, hin, by omega⟩)
      have hvals : regVals g 6 (pduWord f 3).toNat = regVals f 6 (pduWord f 3).toNat :=
        regVals_congr fun j _ hj => hfg j (by omega)
      rw [hvals]
      have h5 : (5 : U16).toNat = 5 := rfl
      exact ⟨rfl, rfl, rfl, fun _ j hj => hfg j (by simp only [h5] at hj; omega)⟩
    · exact ⟨rfl, rfl, rfl, nofun⟩
    · exact ⟨rfl, rfl, rfl, nofun⟩
  · rw [if_neg fun h => hlen h.1, if_neg fun h => hlen h.1]
    exact ⟨rfl, rfl, rfl, nofun⟩

theorem readWrite_local (sz : RegSizes) (s : Slave) :
    LocalAt sz (eMBFuncReadWriteMultipleHoldingRegister sz s) 23 := by
  intro f g len _ hfg hfc hfits
  rw [readWrite_eq, readWrite_eq]
  by_cases hlen : 10 ≤ len
  · have h10 : 10 ≤ len.toNat := BitVec.le_def.mp hlen
    have hword : ∀ k, k + 1 < 10 → pduWord g k = pduWord f k := fun k hk =>
      pduWord_congr hfg (by omega)
    have hchk : ReadWriteChecks g ↔ ReadWriteChecks f := by
      rw [ReadWriteChecks, ReadWriteChecks, hword 3 (by decide), hword 7 (by decide), hfg 9 (by omega)]
    simp only [if_pos hlen, hchk, hword 1 (by decide), hword 3 (by decide), hword 5 (by decide),
      hword 7 (by decide)]
    by_cases hc : ReadWriteChecks f
    · by_cases hw : (pduWord f 5).toNat + (pduWord f 7).toNat ≤ sz.holdingNRegs
      · have hdata : 10 + 2 * (pduWord f 7).toNat ≤ len.toNat := by
          by_contra hover
          exact hfits (Or.inr (Or.inr ⟨hfc, hlen, hc, hw, by omega⟩))
        have htbl : readWriteTable s.regs.usRegHoldingBuf g =
            readWriteTable s.regs.usRegHoldingBuf f := by
          rw [readWriteTable, readWriteTable, hword 5 (by decide), hword 7 (by decide)]
          rw [regVals_congr fun j _ hj => hfg j (by omega)]
        simp only [if_pos hc, if_pos hw, htbl]
        split_ifs
        · refine ⟨rfl, rfl, rfl, fun _ j hj => ?_⟩
          refine blit_congr _ (fun i hi => absurd hi (Nat.not_lt_zero i)) ?_
          simp only [BitVec.mul_comm 2, replyLength_eq (BitVec.le_def.mp hc.1.2)] at hj
          simp only [List.length_cons, regBytes_length, slice_length]
          omega
        · exact ⟨rfl, rfl, rfl, nofun⟩
      · simp only [if_pos hc, if_neg hw]
        exact ⟨rfl, rfl, rfl, nofun⟩
    · simp only [if_neg hc]
      exact ⟨rfl, rfl, rfl, nofun⟩
  · simp only [if_neg hlen]
    exact ⟨rfl, rfl, rfl, fun _ j hj => hfg j hj⟩

theorem writeCoil_local (sz : RegSizes) (s : Slave) (fc : U8) : LocalAt sz (eMBFuncWriteCoil sz s) fc := by
  intro f g len _ hfg _ _
  rw [writeCoil_eq, writeCoil_eq]
  by_cases hlen : len = 5
  · subst hlen
    have h3 : g 3 = f 3 := hfg 3 (by decide)
    have hchk : WriteCoilChecks g ↔ WriteCoilChecks f := by
      rw [WriteCoilChecks, WriteCoilChecks, hfg 4 (by decide), h3]
    have hbuf : coilBuf g = coilBuf f := by
      funext i
      rw [coilBuf, coilBuf, h3]
    rw [if_pos rfl, if_pos rfl, pduWord_congr (n := 5) hfg (by decide), hbuf]
    simp only [hchk]
    split_ifs
    · exact ⟨rfl, rfl, rfl, fun _ j hj => hfg j hj⟩
    · exact ⟨rfl, rfl, rfl, nofun⟩
    · exact ⟨rfl, rfl, rfl, nofun⟩
  · rw [if_neg hlen, if_neg hlen]
    exact ⟨rfl, rfl, rfl, nofun⟩

theorem writeCoils_local (sz : RegSizes) (s : Slave) :
    LocalAt sz (eMBFuncWriteMultipleCoils sz s) 15 := by
  intro f g len _ hfg hfc hfits
  rw [writeCoils_eq, writeCoils_eq]
  by_cases hlen : 5 < len
  · have h5 : 5 < len.toNat := BitVec.lt_def.mp hlen
    have hcnt : pduWord g 3 = pduWord f 3 := pduWord_congr hfg (by omega)
    have hchk : WriteCoilsChecks g ↔ WriteCoilsChecks f := by
      rw [WriteCoilsChecks, WriteCoilsChecks, hcnt, hfg 5 h5]
    rw [if_pos hlen, if_pos hlen, hcnt, pduWord_congr hfg (by omega : 1 + 1 < len.toNat)]
    simp only [hchk]
    split_ifs with hc hin
    · have hdata : 6 + bitRounds (pduWord f 3) ≤ len.toNat := by
        by_contra hover
        exact hfits (Or.inr (Or.inl ⟨hfc, hlen, hc, hin, by omega⟩))
      rw [writeBits_congr _ _ _ fun j _ hj => hfg j (by omega)]
      have h5 : (5 : U16).toNat = 5 := rfl
      exact ⟨rfl, rfl, rfl, fun _ j hj => hfg j (by simp only [h5] at hj; omega)⟩
    · exact ⟨rfl, rfl, rfl, nofun⟩
    · exact ⟨rfl, rfl, rfl, nofun⟩
  · rw [if_neg hlen, if_neg hlen]
    exact ⟨rfl, rfl, rfl, nofun⟩

theorem handlers_local (sz : RegSizes) (s : Slave) :
    ∀ h ∈ xFuncHandlers sz s, LocalAt sz h.2 h.1 := by
  intro h hmem
  simp only [xFuncHandlers, List.mem_cons, List.not_mem_nil, or_false] at hmem
  rcases hmem with rfl | rfl | rfl | rfl | rfl | rfl | rfl | rfl | rfl | rfl
  · exact reportSlaveID_local sz s _
  · exact readInput_local sz s _
  · exact readHolding_local sz s _
  · exact writeMultiple_local sz s
  · exact writeHolding_local sz s _
  · exact readWrite_local sz s
  · exact readCoils_local sz s _
  · exact writeCoil_local sz s _
  · exact writeCoils_local sz s
  · exact readDiscrete_local sz s _

theorem dependsOnReceived_of_fits {sz : RegSizes} {s : Slave} {f : ℕ → U8} {len : U16}
    (hpos : 1 ≤ len.toNat) (hfits : ¬ Overruns sz f len) : DependsOnReceived sz s f len := by
  intro g hfg
  have h0 : g 0 = f 0 := hfg 0 (by omega)
  have hsame : SameResult (dispatch sz s f len) (dispatch sz s g len) := by
    rcases dispatch_cases sz s (f 0) with ⟨h, hmem, hcode, hd⟩ | hd
    · rw [hd f len rfl, hd g len h0]
      exact handlers_local sz s h hmem f g len hpos hfg hcode.symm hfits
    · rw [hd f len rfl, hd g len h0]
      exact ⟨rfl, rfl, rfl, nofun⟩
  rw [execute, execute, h0]
  exact hsame.errorFrame (f 0)

def flip (f : ℕ → U8) (k : ℕ) : ℕ → U8 := Function.update f k (~~~ f k)

theorem flip_of_ne {f : ℕ → U8} {k i : ℕ} (h : i ≠ k) : flip f k i = f i := Function.update_of_ne h _ _

theorem flip_self (f : ℕ → U8) (k : ℕ) : flip f k k = ~~~ f k := Function.update_self _ _ _

theorem complement_ne (x : U8) : ~~~ x ≠ x := by
  intro h
  have h0 := congrArg (fun y : U8 => y.getLsbD 0) h
  simp at h0

theorem blit_regVals_flip_ne (tbl : ℕ → U16) (a : ℕ) (f : ℕ → U8) (p : ℕ) {n : ℕ} (hn : 0 < n) :
    blit tbl a (regVals (flip f (p + 2 * n - 1)) p n) ≠ blit tbl a (regVals f p n) := by
  intro h
  have hcell := congrFun h (a + (n - 1))
  rw [blit_inside _ _ _ _ (by rw [regVals_length]; omega),
    blit_inside _ _ _ _ (by rw [regVals_length]; omega), regVals_getElem, regVals_getElem, pduWord,
    pduWord, be16_inj] at hcell
  have hlast : p + 2 * (n - 1) + 1 = p + 2 * n - 1 := by omega
  rw [hlast, flip_self] at hcell
  exact complement_ne _ hcell.2

theorem writeBits_flip_ne (tbl : ℕ → U8) (off : U16) (f : ℕ → U8) (p : ℕ) {n : ℕ} (hn : 0 < n) :
    writeBits tbl off n (flip f (p + (n + 7) / 8 - 1)) p ((n + 7) / 8) ≠
      writeBits tbl off n f p ((n + 7) / 8) := by
  obtain ⟨k, hk⟩ : ∃ k, (n + 7) / 8 = k + 1 := ⟨(n + 7) / 8 - 1, by omega⟩
  have hlast : p + (k + 1) - 1 = p + k := by omega
  have hleft : 0 < bitsLeft (n - 8 * k) := by
    rw [bitsLeft]
    split_ifs <;> omega
  intro h
  rw [hk, writeBits_succ, writeBits_succ, hlast, flip_self] at h
  have hbit := congrArg (fun t => bitAt t off.toNat) h
  simp only [xMBUtilSetBits_bitAt _ _ hleft] at hbit
  simp at hbit

theorem agree_flip {f : ℕ → U8} {len k : ℕ} (hk : len ≤ k) : ∀ i < len, flip f k i = f i :=
  fun _ hi => flip_of_ne (by omega)

theorem pduWord_flip {f : ℕ → U8} {k j : ℕ} (h : j + 1 < k) : pduWord (flip f k) j = pduWord f j := by
  rw [pduWord, pduWord, flip_of_ne (by omega), flip_of_ne (by omega)]

theorem writeMultiple_regs {sz : RegSizes} {s : Slave} {f : ℕ → U8} {len : U16} (hfc : f 0 = 16)
    (hc : WriteMultipleChecks f len)
    (hin : (pduWord f 1).toNat + (pduWord f 3).toNat ≤ sz.holdingNRegs) :
    (execute sz s f len).regs.usRegHoldingBuf =
      blit s.regs.usRegHoldingBuf (pduWord f 1).toNat (regVals f 6 (pduWord f 3).toNat) := by
  have hd := (dispatch_of_find hfc rfl len).trans (writeMultiple_eq sz s f len)
  rw [execute, errorFrame_regs, hd, if_pos hc, if_pos hin]

theorem writeCoils_regs {sz : RegSizes} {s : Slave} {f : ℕ → U8} {len : U16} (hfc : f 0 = 15)
    (hlen : 5 < len) (hc : WriteCoilsChecks f)
    (hin : (pduWord f 1 + 1).toNat < 2 ^ 15 ∧
      (pduWord f 1 + 1).toNat + (pduWord f 3).toNat ≤ sz.coilsSize) :
    (execute sz s f len).regs.ucRegCoilsBuf =
      writeBits s.regs.ucRegCoilsBuf (pduWord f 1 + 1) (pduWord f 3).toInt.toNat f 6
        (bitRounds (pduWord f 3)) := by
  have hd := (dispatch_of_find hfc rfl len).trans (writeCoils_eq sz s f len)
  rw [execute, errorFrame_regs, hd, if_pos hlen, if_pos hc,
    if_pos hin]

theorem readWrite_regs {sz : RegSizes} {s : Slave} {f : ℕ → U8} {len : U16} (hfc : f 0 = 23)
    (hlen : 10 ≤ len) (hc : ReadWriteChecks f)
    (hw : (pduWord f 5).toNat + (pduWord f 7).toNat ≤ sz.holdingNRegs) :
    (execute sz s f len).regs.usRegHoldingBuf = readWriteTable s.regs.usRegHoldingBuf f := by
  have hd := (dispatch_of_find hfc rfl len).trans (readWrite_eq sz s f len)
  rw [execute, errorFrame_regs, hd]
  simp only [if_pos hlen, if_pos hc, if_pos hw]
  split_ifs <;> rfl

theorem not_dependsOnReceived_writeMultiple {sz : RegSizes} {s : Slave} {f : ℕ → U8} {len : U16}
    (hfc : f 0 = 16) (hc : WriteMultipleChecks f len)
    (hin : (pduWord f 1).toNat + (pduWord f 3).toNat ≤ sz.holdingNRegs)
    (hlt : len.toNat < 6 + 2 * (pduWord f 3).toNat) : ¬ DependsOnReceived sz s f len := by
  intro hdep
  have hn : 1 ≤ (pduWord f 3).toNat := BitVec.le_def.mp hc.2.1
  set k := 6 + 2 * (pduWord f 3).toNat - 1 with hk
  have h1 : pduWord (flip f k) 1 = pduWord f 1 := pduWord_flip (by omega)
  have h3 : pduWord (flip f k) 3 = pduWord f 3 := pduWord_flip (by omega)
  have hc' : WriteMultipleChecks (flip f k) len := by
    rw [WriteMultipleChecks, h3, flip_of_ne (by omega)]
    exact hc
  have hregs := congrArg Regs.usRegHoldingBuf (hdep (flip f k) (agree_flip (by omega))).2
  rw [writeMultiple_regs hfc hc hin,
    writeMultiple_regs ((flip_of_ne (by omega)).trans hfc) hc' (by rwa [h1, h3]), h1, h3] at hregs
  exact blit_regVals_flip_ne _ _ f 6 hn hregs

theorem not_dependsOnReceived_writeCoils {sz : RegSizes} {s : Slave} {f : ℕ → U8} {len : U16}
    (hfc : f 0 = 15) (hlen : 5 < len) (hc : WriteCoilsChecks f)
    (hin : (pduWord f 1 + 1).toNat < 2 ^ 15 ∧
      (pduWord f 1 + 1).toNat + (pduWord f 3).toNat ≤ sz.coilsSize)
    (hlt : len.toNat < 6 + bitRounds (pduWord f 3)) : ¬ DependsOnReceived sz s f len := by
  intro hdep
  have hn : 1 ≤ (pduWord f 3).toNat := BitVec.le_def.mp hc.1
  have hmax : (pduWord f 3).toNat ≤ 1968 := BitVec.le_def.mp hc.2.1
  obtain ⟨hint, hrounds⟩ := bitRounds_eq (n := pduWord f 3) (by omega)
  have h5 : 5 < len.toNat := BitVec.lt_def.mp hlen
  set k := 6 + ((pduWord f 3).toNat + 7) / 8 - 1 with hk
  have h1 : pduWord (flip f k) 1 = pduWord f 1 := pduWord_flip (by omega)
  have h3 : pduWord (flip f k) 3 = pduWord f 3 := pduWord_flip (by omega)
  have hc' : WriteCoilsChecks (flip f k) := by
    rw [WriteCoilsChecks, h3, flip_of_ne (by omega)]
    exact hc
  have hregs := congrArg Regs.ucRegCoilsBuf (hdep (flip f k) (agree_flip (by omega))).2
  rw [writeCoils_regs hfc hlen hc hin,
    writeCoils_regs ((flip_of_ne (by omega)).trans hfc) hlen hc' (by rwa [h1, h3]), h1, h3, hint,
    hrounds] at hregs
  exact writeBits_flip_ne _ _ f 6 hn hregs

theorem not_dependsOnReceived_readWrite {sz : RegSizes} {s : Slave} {f : ℕ → U8} {len : U16}
    (hfc : f 0 = 23) (hlen : 10 ≤ len) (hc : ReadWriteChecks f)
    (hw : (pduWord f 5).toNat + (pduWord f 7).toNat ≤ sz.holdingNRegs)
    (hlt : len.toNat < 10 + 2 * (pduWord f 7).toNat) : ¬ DependsOnReceived sz s f len := by
  intro hdep
  have hn : 1 ≤ (pduWord f 7).toNat := BitVec.le_def.mp hc.2.1.1
  set k := 10 + 2 * (pduWord f 7).toNat - 1 with hk
  have hword : ∀ j, j + 1 < k → pduWord (flip f k) j = pduWord f j := fun j hj => pduWord_flip hj
  have hc' : ReadWriteChecks (flip f k) := by
    rw [ReadWriteChecks, hword 3 (by omega), hword 7 (by omega), flip_of_ne (by omega)]
    exact hc
  have hw' : (pduWord (flip f k) 5).toNat + (pduWord (flip f k) 7).toNat ≤ sz.holdingNRegs := by
    rwa [hword 5 (by omega), hword 7 (by omega)]
  have hregs := congrArg Regs.usRegHoldingBuf (hdep (flip f k) (agree_flip (by omega))).2
  rw [readWrite_regs hfc hlen hc hw, readWrite_regs ((flip_of_ne (by omega)).trans hfc) hlen hc' hw',
    readWriteTable, readWriteTable, hword 5 (by omega), hword 7 (by omega)] at hregs
  exact blit_regVals_flip_ne _ _ f 10 hn hregs

theorem not_dependsOnReceived_of_overruns {sz : RegSizes} {s : Slave} {f : ℕ → U8} {len : U16}
    (hover : Overruns sz f len) : ¬ DependsOnReceived sz s f len := by
  rcases hover with ⟨hfc, hc, hin, hlt⟩ | ⟨hfc, hlen, hc, hin, hlt⟩ | ⟨hfc, hlen, hc, hw, hlt⟩
  · exact not_dependsOnReceived_writeMultiple hfc hc hin hlt
  · exact not_dependsOnReceived_writeCoils hfc hlen hc hin hlt
  · exact not_dependsOnReceived_readWrite hfc hlen hc hw hlt

/-- A request's effect depends only on the bytes received exactly when it is not a
write that is served although its data run past the end of the request. -/
theorem dependsOnReceived_iff (sz : RegSizes) (s : Slave) (f : ℕ → U8) (len : U16)
    (hpos : 1 ≤ len.toNat) : DependsOnReceived sz s f len ↔ ¬ Overruns sz f len :=
  ⟨fun hdep hover => not_dependsOnReceived_of_overruns hover hdep, dependsOnReceived_of_fits hpos⟩

theorem dependsOnReceived_iff_single :
    ¬ Overruns regSizes (blit (fun _ => 0) 0 [6, 0, 0, 1, 2]) 5 ∧
      DependsOnReceived regSizes Slave.start (blit (fun _ => 0) 0 [6, 0, 0, 1, 2]) 5 := by
  have hfits : ¬ Overruns regSizes (blit (fun _ => 0) 0 [6, 0, 0, 1, 2]) 5 := by
    rintro (h | h | h)
    · exact absurd h.1 (by decide)
    · exact absurd h.1 (by decide)
    · exact absurd h.1 (by decide)
  exact ⟨hfits, (dependsOnReceived_iff _ _ _ _ (by decide)).mpr hfits⟩

/-- Function code 16 for two registers with the values cut off: six bytes are
received and the registers are filled from what lies behind them. -/
theorem not_dependsOnReceived :
    ¬ ∀ (sz : RegSizes) (s : Slave) (f : ℕ → U8) (len : U16), 1 ≤ len.toNat →
      DependsOnReceived sz s f len := by
  intro hall
  have h := hall regSizes Slave.start (blit (fun _ => 0) 0 [16, 0, 0, 0, 2, 4]) 6 (by decide)
  refine not_dependsOnReceived_of_overruns (Or.inl ⟨rfl, ?_, by decide, by decide⟩) h
  decide

end Stm32F407
