import Stm32F407.Proofs.ModbusFunc
import Stm32F407.Proofs.RtuPort

/-! What the handlers may write: a reply lies in the 253 bytes of a PDU, and no
cell behind them is touched. So in any run of the slave, whatever comes over the
line and whenever `eMBPoll` gets to it, `ucRTUBuf` is not left. -/

namespace Stm32F407

open Lib

/-- `eMBSetSlaveID` never fills the last byte of `ucMBSlaveID`. -/
def Slave.IdFits (s : Slave) : Prop := s.usMBSlaveIDLen.toNat < 32

instance (s : Slave) : Decidable s.IdFits := inferInstanceAs (Decidable (_ < _))

/-- The reply is a PDU over the request `f`, and the cells behind the PDU are as before. -/
structure Confined (f : ℕ → U8) (r : HandlerResult) : Prop where
  nonempty : 1 ≤ r.usLen.toNat
  short : r.usLen.toNat ≤ 253
  outside : ∀ j, 253 ≤ j → r.frame j = f j

section Handlers

variable {sz : RegSizes} {s : Slave} {f : ℕ → U8} {len : U16}

theorem Confined.request (h1 : 1 ≤ len.toNat) (h2 : len.toNat ≤ 253) (e : EMBException) (r : Regs) :
    Confined f ⟨e, f, len, r⟩ :=
  ⟨h1, h2, fun _ _ => rfl⟩

/-- A reply written over the first cells. -/
theorem Confined.blit {l : List U8} (h1 : 1 ≤ len.toNat) (h2 : len.toNat ≤ 253) (hl : l.length ≤ 253)
    (e : EMBException) (r : Regs) : Confined f ⟨e, blit f 0 l, len, r⟩ :=
  ⟨h1, h2, fun _ hj => blit_outside f l (by omega)⟩

/-- The two bytes of a failed read or of an exception. -/
theorem Confined.two {g : ℕ → U8} (h : ∀ j, 253 ≤ j → g j = f j) (e : EMBException) (r : Regs) :
    Confined f ⟨e, g, 2, r⟩ := by
  have h2 : (2 : U16).toNat = 2 := rfl
  exact ⟨h2 ▸ by omega, h2 ▸ by omega, h⟩

theorem readRequest_confined {fc : U8} {max : U16} {nBytes : U16 → U8} {grow : U16 → U16}
    {cb : (ℕ → U8) → ℕ → U16 → U16 → EMBErrorCode × (ℕ → U8)}
    (hcb : ∀ buf a n, n.toNat < max.toNat → ∀ j, 253 ≤ j → (cb buf 2 a n).2 j = buf j)
    (hgrow : ∀ n, n.toNat < max.toNat → 1 ≤ (2 + grow n).toNat ∧ (2 + grow n).toNat ≤ 253)
    (h1 : 1 ≤ len.toNat) (h2 : len.toNat ≤ 253) :
    Confined f (readRequest fc max nBytes grow cb s f len) := by
  unfold readRequest
  simp only
  by_cases hlen : len = 5
  · by_cases hcnt : 1 ≤ pduWord f 3 ∧ pduWord f 3 < max
    · have hmax := BitVec.lt_def.mp hcnt.2
      have hkeep : ∀ j, 253 ≤ j → (cb (Function.update (Function.update f 0 fc) 1
          (nBytes (pduWord f 3))) 2 (pduWord f 1 + 1) (pduWord f 3)).2 j = f j := by
        intro j hj
        rw [hcb _ _ _ hmax j hj, Function.update_of_ne (by omega), Function.update_of_ne (by omega)]
      rw [if_pos hlen, if_pos hcnt]
      split_ifs
      · exact Confined.two hkeep _ _
      · exact ⟨(hgrow _ hmax).1, (hgrow _ hmax).2, hkeep⟩
    · rw [if_pos hlen, if_neg hcnt]
      exact Confined.request h1 h2 _ _
  · rw [if_neg hlen]
    exact Confined.request h1 h2 _ _

/-- The reads of coils and discrete inputs fill at most 250 bytes. -/
theorem readBits_confined {tbl buf : ℕ → U8} {a n : U16} (hn : n.toNat < 2000) {j : ℕ} (hj : 253 ≤ j) :
    readBits tbl a n.toInt.toNat buf 2 (bitRounds n) j = buf j := by
  obtain ⟨-, hrounds⟩ := bitRounds_eq (n := n) (by omega)
  rw [hrounds]
  exact readBits_outside _ _ _ _ _ _ _ (Or.inr (by omega))

theorem coilReply_confined {n : U16} (hn : n.toNat < 2000) :
    1 ≤ (2 + (coilBytes n).setWidth 16 : U16).toNat ∧
      (2 + (coilBytes n).setWidth 16 : U16).toNat ≤ 253 := by
  rw [coilReply_length (by omega)]
  omega

theorem readCoils_confined (h1 : 1 ≤ len.toNat) (h2 : len.toNat ≤ 253) :
    Confined f (eMBFuncReadCoils sz s f len) := by
  refine readRequest_confined (fun buf a n hn j hj => ?_) (fun n hn => coilReply_confined hn) h1 h2
  simp only [coilsCB_read]
  split_ifs
  · exact readBits_confined hn hj
  · rfl

theorem readDiscrete_confined (h1 : 1 ≤ len.toNat) (h2 : len.toNat ≤ 253) :
    Confined f (eMBFuncReadDiscreteInputs sz s f len) := by
  refine readRequest_confined (fun buf a n hn j hj => ?_) (fun n hn => coilReply_confined hn) h1 h2
  rw [discreteCB_eq]
  split_ifs
  · exact readBits_confined hn hj
  · rfl

theorem readInput_confined (h1 : 1 ≤ len.toNat) (h2 : len.toNat ≤ 253) :
    Confined f (eMBFuncReadInputRegister sz s f len) := by
  have hmax : (0x007D : U16).toNat = 125 := rfl
  refine readRequest_confined (fun buf a n hn j hj => ?_) (fun n hn => ?_) h1 h2
  · rw [inputCB_eq]
    split_ifs
    · refine blit_outside _ _ (Or.inr ?_)
      rw [regBytes_length, slice_length]
      omega
    · rfl
  · rw [replyLength_eq (by omega)]
    omega

theorem readHolding_confined (h1 : 1 ≤ len.toNat) (h2 : len.toNat ≤ 253) :
    Confined f (eMBFuncReadHoldingRegister sz s f len) := by
  rw [readHolding_eq]
  split_ifs with hchk hin
  · have hcnt : (readHoldingCount f).toNat ≤ 125 := BitVec.le_def.mp hchk.2.2
    have hlen := replyLength_eq hcnt
    refine Confined.blit (by omega) (by omega) ?_ _ _
    simp only [List.length_cons, regBytes_length, slice_length]
    omega
  · exact Confined.blit (by decide) (by decide) (by simp) _ _
  · exact Confined.request h1 h2 _ _

theorem writeHolding_confined (h1 : 1 ≤ len.toNat) (h2 : len.toNat ≤ 253) :
    Confined f (eMBFuncWriteHoldingRegister sz s f len) := by
  rw [writeHolding_eq]
  split_ifs <;> exact Confined.request h1 h2 _ _

theorem writeMultiple_confined (h1 : 1 ≤ len.toNat) (h2 : len.toNat ≤ 253) :
    Confined f (eMBFuncWriteMultipleHoldingRegister sz s f len) := by
  rw [writeMultiple_eq]
  split_ifs
  · exact Confined.request (by decide) (by decide) _ _
  · exact Confined.request h1 h2 _ _
  · exact Confined.request h1 h2 _ _

theorem readWrite_confined (h1 : 1 ≤ len.toNat) (h2 : len.toNat ≤ 253) :
    Confined f (eMBFuncReadWriteMultipleHoldingRegister sz s f len) := by
  rw [readWrite_eq]
  simp only
  split_ifs with hlen hchk hw hr
  · have hcnt : (pduWord f 3).toNat ≤ 125 := BitVec.le_def.mp hchk.1.2
    have hreply := replyLength_eq hcnt
    rw [BitVec.mul_comm] at hreply
    refine Confined.blit (by omega) (by omega) ?_ _ _
    simp only [List.length_cons, regBytes_length, slice_length]
    omega
  · exact Confined.blit (by decide) (by decide) (by simp) _ _
  · exact Confined.request h1 h2 _ _
  · exact Confined.request h1 h2 _ _
  · exact Confined.request h1 h2 _ _

theorem writeCoil_confined (h1 : 1 ≤ len.toNat) (h2 : len.toNat ≤ 253) :
    Confined f (eMBFuncWriteCoil sz s f len) := by
  rw [writeCoil_eq]
  split_ifs <;> exact Confined.request h1 h2 _ _

theorem writeCoils_confined (h1 : 1 ≤ len.toNat) (h2 : len.toNat ≤ 253) :
    Confined f (eMBFuncWriteMultipleCoils sz s f len) := by
  rw [writeCoils_eq]
  split_ifs
  · exact Confined.request (by decide) (by decide) _ _
  · exact Confined.request h1 h2 _ _
  · exact Confined.request h1 h2 _ _
  · exact Confined.request h1 h2 _ _

theorem reportSlaveID_confined (len : U16) (hid : s.IdFits) :
    Confined f (eMBFuncReportSlaveID s f len) := by
  have hid : s.usMBSlaveIDLen.toNat < 32 := hid
  have h1 : (1 : U16).toNat = 1 := rfl
  have hlen : (1 + s.usMBSlaveIDLen).toNat = 1 + s.usMBSlaveIDLen.toNat := by
    rw [BitVec.toNat_add, h1]
    omega
  refine ⟨?_, ?_, fun j hj => blit_outside _ _ (Or.inr ?_)⟩
  · change 1 ≤ (1 + s.usMBSlaveIDLen).toNat
    omega
  · change (1 + s.usMBSlaveIDLen).toNat ≤ 253
    omega
  · rw [slice_length]
    omega

theorem handlers_confined (hid : s.IdFits) (h1 : 1 ≤ len.toNat) (h2 : len.toNat ≤ 253) :
    ∀ h ∈ xFuncHandlers sz s, Confined f (h.2 f len) := by
  intro h hmem
  simp only [xFuncHandlers, List.mem_cons, List.not_mem_nil, or_false] at hmem
  rcases hmem with rfl | rfl | rfl | rfl | rfl | rfl | rfl | rfl | rfl | rfl
  · exact reportSlaveID_confined len hid
  · exact readInput_confined h1 h2
  · exact readHolding_confined h1 h2
  · exact writeMultiple_confined h1 h2
  · exact writeHolding_confined h1 h2
  · exact readWrite_confined h1 h2
  · exact readCoils_confined h1 h2
  · exact writeCoil_confined h1 h2
  · exact writeCoils_confined h1 h2
  · exact readDiscrete_confined h1 h2

theorem dispatch_confined (hid : s.IdFits) (h1 : 1 ≤ len.toNat) (h2 : len.toNat ≤ 253) :
    Confined f (dispatch sz s f len) := by
  rcases dispatch_cases sz s (f 0) with ⟨h, hmem, -, hd⟩ | hd
  · rw [hd f len rfl]
    exact handlers_confined hid h1 h2 h hmem
  · rw [hd f len rfl]
    exact Confined.request h1 h2 _ _

theorem Confined.errorFrame {r : HandlerResult} (h : Confined f r) (fc : U8) :
    Confined f (errorFrame fc r) := by
  unfold Stm32F407.errorFrame
  split_ifs
  · refine Confined.two (fun j hj => ?_) _ _
    rw [Function.update_of_ne (by omega), Function.update_of_ne (by omega), h.outside j hj]
  · exact h

theorem execute_confined (hid : s.IdFits) (h1 : 1 ≤ len.toNat) (h2 : len.toNat ≤ 253) :
    Confined f (execute sz s f len) :=
  (dispatch_confined hid h1 h2).errorFrame _

end Handlers

theorem setSlaveID_idFits {s : Slave} (hid : s.IdFits) (ucSlaveID : U8) (xIsRunning : Bool)
    (pucAdditional : ℕ → U8) (usAdditionalLen : U16) :
    (eMBSetSlaveID s ucSlaveID xIsRunning pucAdditional usAdditionalLen).2.IdFits := by
  unfold eMBSetSlaveID
  by_cases hfit : usAdditionalLen.toNat + 2 < 32
  · have h2 : (2 : U16).toNat = 2 := rfl
    have hsum : (2 + usAdditionalLen).toNat = 2 + usAdditionalLen.toNat := by
      rw [BitVec.toNat_add, h2]
      omega
    simp only [if_pos hfit, Slave.IdFits]
    split_ifs <;> simp only [hsum, h2] <;> omega
  · rw [if_neg hfit]
    exact hid

/-- Every index that the stack holds lies in the 256 bytes of `ucRTUBuf`, and the
memory behind them is that of `buf`. -/
structure InBuffer (buf : ℕ → U8) (m : Mb) : Prop where
  idFits : m.slave.IdFits
  outside : ∀ k, 256 ≤ k → m.rtu.ucRTUBuf k = buf k
  pos : m.rtu.usRcvBufferPos.toNat ≤ 256
  execute : m.Pending .execute →
    m.ucMBFrame = 1 ∧ 1 ≤ m.usLength.toNat ∧ m.usLength.toNat ≤ 253
  sending : m.rtu.eSndState = .xmit →
    m.rtu.pucSndBufferCur + m.rtu.usSndBufferCount.toNat ≤ 256

namespace Rtu

variable {r : Rtu}

/-- A byte goes to a cell of the buffer or nowhere, and the transmitter does not notice. -/
theorem receiveFSM_inside (hpos : r.usRcvBufferPos.toNat ≤ 256) (b : U8) :
    (∀ k, 256 ≤ k → (r.xMBRTUReceiveFSM b).ucRTUBuf k = r.ucRTUBuf k) ∧
      (r.xMBRTUReceiveFSM b).pucSndBufferCur = r.pucSndBufferCur ∧
      (r.xMBRTUReceiveFSM b).usSndBufferCount = r.usSndBufferCount := by
  unfold xMBRTUReceiveFSM
  split
  · exact ⟨fun _ _ => rfl, rfl, rfl⟩
  · exact ⟨fun _ _ => rfl, rfl, rfl⟩
  · exact ⟨fun k hk => Function.update_of_ne (by omega) _ _, rfl, rfl⟩
  · split_ifs with hroom
    · have hlt := BitVec.lt_def.mp hroom
      have h256 : (256 : U16).toNat = 256 := rfl
      exact ⟨fun k hk => Function.update_of_ne (by omega) _ _, rfl, rfl⟩
    · exact ⟨fun _ _ => rfl, rfl, rfl⟩

/-- The address goes before the PDU and the CRC behind it. -/
theorem eMBRTUSend_inside (r : Rtu) (a : U8) {len : U16} (hlen : len.toNat ≤ 253) :
    (∀ k, 256 ≤ k → (r.eMBRTUSend a 1 len).2.ucRTUBuf k = r.ucRTUBuf k) ∧
      ((r.eMBRTUSend a 1 len).2 = r ∨
        (r.eMBRTUSend a 1 len).2.pucSndBufferCur +
          (r.eMBRTUSend a 1 len).2.usSndBufferCount.toNat ≤ 256) := by
  have h1 : (1 : U16).toNat = 1 := rfl
  have hcount : (1 + len).toNat = 1 + len.toNat := by
    rw [BitVec.toNat_add, h1]
    omega
  have hcount' : (1 + len + 1).toNat = 2 + len.toNat := by
    rw [BitVec.toNat_add, h1, hcount]
    omega
  unfold eMBRTUSend
  split_ifs
  · refine ⟨fun k hk => ?_, Or.inr ?_⟩
    · simp only [vMBPortSerialEnable, xMBPortSerialPutByte]
      rw [Function.update_of_ne (by omega), Function.update_of_ne (by omega),
        Function.update_of_ne (by omega)]
    · simp only [vMBPortSerialEnable, Nat.sub_self, BitVec.add_sub_cancel, hcount']
      omega
  · exact ⟨fun _ _ => rfl, Or.inl rfl⟩

/-- A byte sent moves the cursor up and the count down. -/
theorem xMBRTUTransmitFSM_inside
    (h : r.eSndState = .xmit → r.pucSndBufferCur + r.usSndBufferCount.toNat ≤ 256)
    (hx : r.xMBRTUTransmitFSM.eSndState = .xmit) :
    r.xMBRTUTransmitFSM.pucSndBufferCur + r.xMBRTUTransmitFSM.usSndBufferCount.toNat ≤ 256 := by
  unfold xMBRTUTransmitFSM at hx ⊢
  cases hsnd : r.eSndState with
  | idle =>
    simp only [hsnd, vMBPortSerialEnable] at hx
    cases hx
  | xmit =>
    have hbound := h hsnd
    simp only [hsnd] at hx ⊢
    split_ifs at hx ⊢ with hleft
    · have h1 : (1 : U16).toNat = 1 := rfl
      have hpos : 0 < r.usSndBufferCount.toNat := by
        by_contra h0
        exact hleft (BitVec.eq_of_toNat_eq (by change _ = 0; omega))
      simp only [xMBPortSerialPutByte]
      rw [BitVec.toNat_sub, h1]
      omega

end Rtu

namespace InBuffer

variable {sz : RegSizes} {buf : ℕ → U8} {m : Mb}

theorem start (a : U8) {slave : Slave} (hid : slave.IdFits) (buf : ℕ → U8) :
    InBuffer buf (Mb.start a slave buf) := by
  refine ⟨hid, fun _ _ => rfl, Nat.zero_le _, fun hp => ?_, fun hx => ?_⟩
  · cases hp.1
  · cases hx

/-- The invariant does not depend on the enables and on what has been put and posted. -/
theorem congr {m' : Mb} (h : InBuffer buf m)
    (hmb : m'.slave = m.slave ∧ m'.ucMBFrame = m.ucMBFrame ∧ m'.usLength = m.usLength)
    (hbuf : m'.rtu.ucRTUBuf = m.rtu.ucRTUBuf) (hpos : m'.rtu.usRcvBufferPos = m.rtu.usRcvBufferPos)
    (hsnd : m'.rtu.eSndState = m.rtu.eSndState ∧ m'.rtu.pucSndBufferCur = m.rtu.pucSndBufferCur ∧
      m'.rtu.usSndBufferCount = m.rtu.usSndBufferCount)
    (hq : m'.Pending .execute → m.Pending .execute) : InBuffer buf m' := by
  obtain ⟨hslave, hframe, hlen⟩ := hmb
  obtain ⟨hx, hcur, hcount⟩ := hsnd
  refine ⟨hslave ▸ h.idFits, hbuf ▸ h.outside, hpos ▸ h.pos, fun hp => ?_, fun hs => ?_⟩
  · rw [hframe, hlen]
    exact h.execute (hq hp)
  · rw [hcur, hcount]
    exact h.sending (hx ▸ hs)

theorem byte (h : InBuffer buf m) (b : U8) :
    InBuffer buf { m with rtu := m.rtu.xMBRTUReceiveFSM b } := by
  obtain ⟨hout, hcur, hcount⟩ := Rtu.receiveFSM_inside h.pos b
  obtain ⟨hsnd, -, -, -, -, hpos⟩ := m.rtu.receiveFSM_port b
  obtain ⟨hq, hev⟩ := m.rtu.receiveFSM_queue b
  refine ⟨h.idFits, fun k hk => (hout k hk).trans (h.outside k hk), hpos h.pos, fun hp => ?_,
    fun hx => ?_⟩
  · exact h.execute ⟨hq ▸ hp.1, hev ▸ hp.2⟩
  · simp only [hcur, hcount]
    exact h.sending (hsnd ▸ hx)

theorem t35 (h : InBuffer buf m) : InBuffer buf { m with rtu := m.rtu.xMBRTUTimerT35Expired } := by
  unfold Rtu.xMBRTUTimerT35Expired
  cases m.rtu.eRcvState with
  | init => exact h.congr ⟨rfl, rfl, rfl⟩ rfl rfl ⟨rfl, rfl, rfl⟩ fun hp => by cases hp.2
  | rcv => exact h.congr ⟨rfl, rfl, rfl⟩ rfl rfl ⟨rfl, rfl, rfl⟩ fun hp => by cases hp.2
  | error => exact h.congr ⟨rfl, rfl, rfl⟩ rfl rfl ⟨rfl, rfl, rfl⟩ fun hp => hp
  | idle => exact h.congr ⟨rfl, rfl, rfl⟩ rfl rfl ⟨rfl, rfl, rfl⟩ fun hp => hp

theorem txComplete (h : InBuffer buf m) :
    InBuffer buf { m with rtu := m.rtu.xMBRTUTransmitFSM } := by
  obtain ⟨-, hbuf, hpos, hq⟩ := m.rtu.xMBRTUTransmitFSM_frame
  refine ⟨h.idFits, hbuf ▸ h.outside, hpos ▸ h.pos, fun hp => ?_,
    Rtu.xMBRTUTransmitFSM_inside h.sending⟩
  rcases hq with ⟨hin, hev⟩ | hev
  · exact h.execute ⟨hin ▸ hp.1, hev ▸ hp.2⟩
  · cases hev.symm.trans hp.2

/-- A frame taken from the buffer has a PDU of 1 to 253 bytes. -/
theorem poll_received (h : InBuffer buf m) (hq : m.rtu.xEventInQueue = false) :
    InBuffer buf m.pollFrameReceived := by
  unfold Mb.pollFrameReceived
  cases hr : m.rtu.eMBRTUReceive with
  | error _ => exact h
  | ok x =>
    have hno : ¬ m.Pending .execute := fun hp => absurd (hq.symm.trans hp.1) Bool.false_ne_true
    obtain ⟨ucRcvAddress, ucMBFrame, usLength⟩ := x
    have hform : ucMBFrame = 1 ∧ 1 ≤ usLength.toNat ∧ usLength.toNat ≤ 253 := by
      unfold Rtu.eMBRTUReceive at hr
      split_ifs at hr with hchk
      simp only [Except.ok.injEq, Prod.mk.injEq] at hr
      obtain ⟨-, rfl, rfl⟩ := hr
      have hmin := BitVec.le_def.mp hchk.1
      have h4 : (4 : U16).toNat = 4 := rfl
      have h1 : (1 : U16).toNat = 1 := rfl
      have h2 : (2 : U16).toNat = 2 := rfl
      have hpos := h.pos
      refine ⟨rfl, ?_⟩
      rw [BitVec.toNat_sub, BitVec.toNat_sub, h1, h2]
      omega
    simp only
    split_ifs
    · exact ⟨h.idFits, h.outside, h.pos, fun _ => hform, h.sending⟩
    · exact ⟨h.idFits, h.outside, h.pos, fun _ => hform, h.sending⟩

/-- The handler works inside the PDU, and the reply with address and CRC fits. -/
theorem poll_execute (h : InBuffer buf m) (hq : m.rtu.xEventInQueue = false)
    (hform : m.ucMBFrame = 1 ∧ 1 ≤ m.usLength.toNat ∧ m.usLength.toNat ≤ 253) :
    InBuffer buf (m.pollExecute sz) := by
  obtain ⟨hone, hmin, hmax⟩ := hform
  have hdisp : Confined m.pdu (dispatch sz m.slave m.pdu m.usLength) :=
    dispatch_confined h.idFits hmin hmax
  have hstore : ∀ {out : HandlerResult}, Confined m.pdu out →
      ∀ k, 256 ≤ k → m.storePdu out.frame k = buf k := by
    intro out hout k hk
    rw [Mb.storePdu, hone, if_neg (by omega), hout.outside (k - 1) (by omega), Mb.pdu, hone,
      show 1 + (k - 1) = k by omega, h.outside k hk]
  unfold Mb.pollExecute
  simp only
  split_ifs
  · have hout := hdisp.errorFrame (m.pdu 0)
    generalize errorFrame (m.pdu 0) (dispatch sz m.slave m.pdu m.usLength) = out at hout
    rw [hone]
    obtain ⟨hkeep, hsent⟩ := Rtu.eMBRTUSend_inside
      { m.rtu with ucRTUBuf := m.storePdu out.frame } m.ucMBAddress hout.short
    obtain ⟨-, hqueue, -⟩ := Rtu.eMBRTUSend_frame
      { m.rtu with ucRTUBuf := m.storePdu out.frame } m.ucMBAddress 1 out.usLen
    have hport := Rtu.eMBRTUSend_port
      { m.rtu with ucRTUBuf := m.storePdu out.frame } m.ucMBAddress 1 out.usLen
    refine ⟨h.idFits, fun k hk => (hkeep k hk).trans (hstore hout k hk), ?_, fun hp => ?_,
      fun hx => ?_⟩
    · rw [hport.pos]
      exact h.pos
    · have hset := hqueue.symm.trans hp.1
      simp [hq] at hset
    · rcases hsent with hsame | hfit
      · rw [hsame] at hx ⊢
        exact h.sending hx
      · exact hfit
  · refine ⟨h.idFits, hstore hdisp, h.pos, fun hp => ?_, h.sending⟩
    simp [Mb.Pending, hq] at hp

theorem poll (h : InBuffer buf m) : InBuffer buf (m.eMBPoll sz) := by
  rw [Mb.eMBPoll_eq]
  split_ifs with hen hq
  · exact h
  · have hdeq : InBuffer buf m.dequeue :=
      h.congr ⟨rfl, rfl, rfl⟩ rfl rfl ⟨rfl, rfl, rfl⟩ fun hp => by cases hp.1
    unfold Mb.handle
    cases hev : m.rtu.eQueuedEvent with
    | ready => exact hdeq
    | frameSent => exact hdeq
    | frameReceived => exact hdeq.poll_received rfl
    | execute => exact hdeq.poll_execute rfl (h.execute ⟨hq, hev⟩)
  · exact h

theorem enable (h : InBuffer buf m) : InBuffer buf m.eMBEnable := by
  unfold Mb.eMBEnable
  split_ifs
  · exact h.congr ⟨rfl, rfl, rfl⟩ rfl rfl ⟨rfl, rfl, rfl⟩ fun hp => hp
  · exact h

theorem disable (h : InBuffer buf m) : InBuffer buf m.eMBDisable := by
  unfold Mb.eMBDisable
  split_ifs
  · exact h.congr ⟨rfl, rfl, rfl⟩ rfl rfl ⟨rfl, rfl, rfl⟩ fun hp => hp
  · exact h

theorem step {s s' : MbSystem} {e : MbEvent} (h : InBuffer buf s.mb) (hs : MbStep sz s e s') :
    InBuffer buf s'.mb := by
  obtain ⟨-, rfl⟩ := hs
  cases e with
  | byte b => exact (congrArg (InBuffer buf) (s.received_mb b).1).mpr (h.byte b)
  | t35 => exact (congrArg (InBuffer buf) s.expired_mb.1).mpr h.t35
  | txComplete => exact h.txComplete
  | poll => exact (congrArg (InBuffer buf) (s.polled_mb sz)).mpr h.poll
  | disable => exact h.disable
  | enable => exact (congrArg (InBuffer buf) s.enabled_mb.1).mpr h.enable

theorem run {s s' : MbSystem} {evs : List MbEvent} (h : InBuffer buf s.mb)
    (hrun : Run (MbStep sz) s evs s') : InBuffer buf s'.mb := by
  have hstep : ∀ t e t', InBuffer buf t.mb → MbStep sz t e t' → InBuffer buf t'.mb :=
    fun _ _ _ ht hs => ht.step hs
  exact hrun.invariant h hstep

end InBuffer

/-- In every run, with frames of any bytes and any length and polls at any time, no
step writes a cell behind the 256 bytes of `ucRTUBuf`, receiving and sending stay
below that bound, and a request handed to a handler is a PDU of 1 to 253 bytes, over which
the handler and the exception reply write a PDU of 1 to 253 bytes and nothing behind it. -/
theorem buffer_not_left (sz : RegSizes) (ucMBAddress : U8) (slave : Slave) (buf : ℕ → U8)
    {evs : List MbEvent} {s : MbSystem} (hid : slave.IdFits)
    (hrun : Run (MbStep sz) (MbSystem.start ucMBAddress slave buf) evs s) :
    (∀ k, 256 ≤ k → s.mb.rtu.ucRTUBuf k = buf k) ∧
      s.mb.rtu.usRcvBufferPos.toNat ≤ 256 ∧
      (s.mb.rtu.eSndState = .xmit →
        s.mb.rtu.pucSndBufferCur + s.mb.rtu.usSndBufferCount.toNat ≤ 256) ∧
      (s.mb.Executes →
        s.mb.ucMBFrame = 1 ∧ 1 ≤ s.mb.usLength.toNat ∧ s.mb.usLength.toNat ≤ 253 ∧
          Confined s.mb.pdu (dispatch sz s.mb.slave s.mb.pdu s.mb.usLength) ∧
          Confined s.mb.pdu (execute sz s.mb.slave s.mb.pdu s.mb.usLength)) := by
  have h : InBuffer buf s.mb := (InBuffer.start ucMBAddress hid buf).run hrun
  refine ⟨h.outside, h.pos, h.sending, fun hex => ?_⟩
  obtain ⟨hone, hmin, hmax⟩ := h.execute hex.2
  exact ⟨hone, hmin, hmax, dispatch_confined h.idFits hmin hmax, execute_confined h.idFits hmin hmax⟩

/-- Slave 1 when it is about to execute the request `11`, and while the reply is sent. -/
theorem buffer_not_left_report :
    (∃ s, Run (MbStep regSizes) (MbSystem.start 1 Slave.start fun _ => 0) reportEvents.dropLast s ∧
      Confined s.mb.pdu (execute regSizes s.mb.slave s.mb.pdu s.mb.usLength)) ∧
    ∃ s, Run (MbStep regSizes) (MbSystem.start 1 Slave.start fun _ => 0) reportEvents s ∧
      s.mb.rtu.pucSndBufferCur + s.mb.rtu.usSndBufferCount.toNat ≤ 256 := by
  have hid : Slave.start.IdFits := by decide
  have hrun : ∀ evs, Admitted (MbSystem.next regSizes) MbSystem.Ready
      (MbSystem.start 1 Slave.start fun _ => 0) evs →
      Run (MbStep regSizes) (MbSystem.start 1 Slave.start fun _ => 0) evs _ :=
    fun _ hadm => Run.of_admitted (fun s e h => ⟨h, rfl⟩) hadm
  have hrun₁ := hrun reportEvents.dropLast (by decide +kernel)
  have hrun₂ := hrun reportEvents (by decide +kernel)
  have hex := (buffer_not_left regSizes 1 Slave.start _ hid hrun₁).2.2.2 (by decide +kernel)
  have hsend := (buffer_not_left regSizes 1 Slave.start _ hid hrun₂).2.2.1 (by decide +kernel)
  exact ⟨⟨_, hrun₁, hex.2.2.2.2⟩, _, hrun₂, hsend⟩

end Stm32F407
