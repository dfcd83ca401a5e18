import Stm32F407.Spec.ModbusRtu

/-! What `eMBRTUSend` and the transmit interrupts put on the line is what an idle
receiver accepts: the CRC of a frame that ends in its own CRC is zero, and both
state machines step through the same bytes. -/

namespace Stm32F407

open Lib

def crcStep (crc : U8 × U8) (b : U8) : U8 × U8 :=
  (aucCRCLo.getD (crc.2 ^^^ b).toNat 0, crc.1 ^^^ aucCRCHi.getD (crc.2 ^^^ b).toNat 0)

def crc16 (l : List U8) : U16 :=
  be16 (l.foldl crcStep (0xFF, 0xFF)).1 (l.foldl crcStep (0xFF, 0xFF)).2

theorem crcLoop_eq (f : ℕ → U8) (p : ℕ) (hi lo : U8) (n : ℕ) :
    crcLoop f p hi lo n =
      be16 ((slice f p n).foldl crcStep (hi, lo)).1 ((slice f p n).foldl crcStep (hi, lo)).2 := by
  induction n generalizing p hi lo with
  | zero => rfl
  | succ n ih =>
    rw [crcLoop, ih, slice_succ', List.foldl_cons]
    rfl

theorem usMBCRC16_eq (f : ℕ → U8) (p n : ℕ) : usMBCRC16 f p n = crc16 (slice f p n) := crcLoop_eq ..

/-- A byte equal to the low CRC byte looks up the zero entry of both tables. -/
theorem crcStep_self (hi lo : U8) : crcStep (hi, lo) lo = (0, hi) := by
  have hxor : lo ^^^ lo = 0 := BitVec.xor_self
  have hhi : hi ^^^ 0 = hi := BitVec.xor_zero
  simp only [crcStep, hxor]
  exact Prod.ext rfl hhi

theorem crc16_residue (l : List U8) : crc16 (l ++ [loByte (crc16 l), hiByte (crc16 l)]) = 0 := by
  unfold crc16
  rw [List.foldl_append, loByte_be16, hiByte_be16, List.foldl_cons, List.foldl_cons, List.foldl_nil]
  generalize l.foldl crcStep (0xFF, 0xFF) = crc
  obtain ⟨hi, lo⟩ := crc
  rw [crcStep_self, crcStep_self]
  rfl

def rtuFrame (s : U8) (pdu : List U8) : List U8 :=
  (s :: pdu) ++ [loByte (crc16 (s :: pdu)), hiByte (crc16 (s :: pdu))]

theorem rtuFrame_cons (s : U8) (pdu : List U8) :
    rtuFrame s pdu = s :: (pdu ++ [loByte (crc16 (s :: pdu)), hiByte (crc16 (s :: pdu))]) := rfl

@[simp] theorem rtuFrame_length (s : U8) (pdu : List U8) : (rtuFrame s pdu).length = pdu.length + 3 := by
  simp [rtuFrame]

theorem rtuFrame_crc (s : U8) (pdu : List U8) : crc16 (rtuFrame s pdu) = 0 := crc16_residue _

namespace Rtu

/-- `frame` stands in the buffer and its first `i` bytes have been handed to the port. -/
structure Sending (frame : List U8) (i : ℕ) (put : List U8) (posted : List EMBEventType) (r : Rtu) :
    Prop where
  xmit : r.eSndState = .xmit
  enabled : r.xTxEnable = true
  buf : Holds r.ucRTUBuf 0 frame
  cur : r.pucSndBufferCur = i
  count : r.usSndBufferCount.toNat + i = frame.length
  put : r.put = put ++ frame.take i
  posted : r.posted = posted

theorem holds_getElem {f : ℕ → U8} {l : List U8} (h : Holds f 0 l) (i : ℕ) (hi : i < l.length) :
    f i = l[i] := by
  have hs : slice f 0 l.length = l := h
  have hget := slice_getElem f 0 l.length i (by simpa using hi)
  rw [Nat.zero_add] at hget
  rw [← hget]
  congr 1

theorem eMBRTUSend_spec {r : Rtu} (s : U8) {pdu : List U8} (hpdu : Holds r.ucRTUBuf 1 pdu)
    (hlen : pdu.length ≤ 253) (hidle : r.eRcvState = .idle) :
    (r.eMBRTUSend s 1 (BitVec.ofNat 16 pdu.length)).1 = .noErr ∧
      Sending (rtuFrame s pdu) 1 r.put r.posted
        (r.eMBRTUSend s 1 (BitVec.ofNat 16 pdu.length)).2 := by
  have h1 : (1 : U16).toNat = 1 := rfl
  have hcount : (1 + BitVec.ofNat 16 pdu.length : U16).toNat = (s :: pdu).length := by
    rw [BitVec.toNat_add, h1, BitVec.toNat_ofNat, List.length_cons]
    omega
  have hcount' : (1 + BitVec.ofNat 16 pdu.length + 1 : U16).toNat = (s :: pdu).length + 1 := by
    rw [BitVec.toNat_add, h1, hcount, List.length_cons]
    omega
  have hlast : (1 + BitVec.ofNat 16 pdu.length + 1 + 1 - 1 : U16).toNat + 1 =
      (rtuFrame s pdu).length := by
    rw [BitVec.add_sub_cancel, hcount', rtuFrame_length, List.length_cons]
  have hhead : Holds (Function.update r.ucRTUBuf 0 s) 0 (s :: pdu) := by
    rw [holds_cons]
    exact ⟨Function.update_self _ _ _, hpdu.congr fun i _ => Function.update_of_ne (by omega) _ _⟩
  have hcrc : usMBCRC16 (Function.update r.ucRTUBuf 0 s) 0 (s :: pdu).length = crc16 (s :: pdu) := by
    rw [usMBCRC16_eq]
    exact congrArg crc16 hhead
  have hframe : Holds (blit (Function.update r.ucRTUBuf 0 s) (s :: pdu).length
      [loByte (crc16 (s :: pdu)), hiByte (crc16 (s :: pdu))]) 0 (rtuFrame s pdu) := by
    rw [rtuFrame, holds_append, Nat.zero_add]
    exact ⟨hhead.congr fun i hi => blit_outside _ _ (by omega), holds_blit _ _ _⟩
  unfold eMBRTUSend
  rw [if_pos hidle]
  simp only [Nat.sub_self, hcount, hcount', hcrc]
  refine ⟨trivial, rfl, rfl, hframe, rfl, hlast, ?_, rfl⟩
  rw [vMBPortSerialEnable, xMBPortSerialPutByte]
  simp only
  congr 1

theorem Sending.step {frame : List U8} {i : ℕ} {put : List U8} {posted : List EMBEventType} {r : Rtu}
    (h : Sending frame i put posted r) (hi : i < frame.length) :
    Sending frame (i + 1) put posted r.xMBRTUTransmitFSM := by
  have hne : r.usSndBufferCount ≠ 0 := by
    intro h0
    have hcount := h.count
    rw [h0] at hcount
    exact absurd hcount (by change 0 + i ≠ _; omega)
  have hcount : (r.usSndBufferCount - 1).toNat + (i + 1) = frame.length := by
    have h1 : (1 : U16).toNat = 1 := rfl
    have := h.count
    rw [BitVec.toNat_sub, h1]
    omega
  unfold xMBRTUTransmitFSM
  rw [h.xmit]
  simp only [if_pos hne]
  refine ⟨h.xmit, h.enabled, h.buf, ?_, hcount, ?_, h.posted⟩
  · simp only [xMBPortSerialPutByte, h.cur]
  · simp only [xMBPortSerialPutByte, h.cur, h.put, holds_getElem h.buf i hi, List.append_assoc]
    rw [List.take_add_one, List.getElem?_eq_getElem hi]
    rfl

/-- All bytes of the frame go out, and then the transmitter is disabled. -/
theorem Sending.run {frame : List U8} {put : List U8} {posted : List EMBEventType} (k : ℕ) {i : ℕ}
    {r : Rtu} (h : Sending frame i put posted r) (hk : i + k ≤ frame.length) :
    Sending frame (i + k) put posted (xMBRTUTransmitFSM^[k] r) := by
  induction k generalizing i r with
  | zero => exact h
  | succ k ih =>
    rw [Function.iterate_succ_apply, show i + (k + 1) = i + 1 + k by omega]
    exact ih (h.step (by omega)) (by omega)

theorem Sending.finish {frame : List U8} {put : List U8} {posted : List EMBEventType} {r : Rtu}
    (h : Sending frame frame.length put posted r) :
    r.xMBRTUTransmitFSM.xTxEnable = false ∧ r.xMBRTUTransmitFSM.xRxEnable = true ∧
      r.xMBRTUTransmitFSM.eSndState = .idle ∧ r.xMBRTUTransmitFSM.put = put ++ frame ∧
      r.xMBRTUTransmitFSM.posted = posted ++ [.frameSent] := by
  have h0 : r.usSndBufferCount = 0 := by
    apply BitVec.eq_of_toNat_eq
    have := h.count
    change _ = 0
    omega
  unfold xMBRTUTransmitFSM
  rw [h.xmit]
  simp only [if_neg (not_not_intro h0)]
  refine ⟨rfl, rfl, trivial, ?_, ?_⟩
  · simpa [vMBPortSerialEnable, xMBPortEventPost] using h.put
  · simp only [vMBPortSerialEnable, xMBPortEventPost, h.posted]

structure Receiving (l : List U8) (r : Rtu) : Prop where
  rcv : r.eRcvState = .rcv
  buf : Holds r.ucRTUBuf 0 l
  pos : r.usRcvBufferPos.toNat = l.length

theorem receiveFSM_idle {q : Rtu} (hidle : q.eRcvState = .idle) (b : U8) :
    Receiving [b] (q.xMBRTUReceiveFSM b) := by
  unfold xMBRTUReceiveFSM
  rw [hidle]
  exact ⟨rfl, by simp [vMBPortTimersEnable], rfl⟩

theorem Receiving.step {l : List U8} {r : Rtu} (h : Receiving l r) (hl : l.length < 256) (b : U8) :
    Receiving (l ++ [b]) (r.xMBRTUReceiveFSM b) := by
  have hlt : r.usRcvBufferPos < 256 := by
    rw [BitVec.lt_def, h.pos]
    exact hl
  unfold xMBRTUReceiveFSM
  rw [h.rcv]
  simp only [if_pos hlt]
  refine ⟨rfl, ?_, ?_⟩
  · rw [holds_append, Nat.zero_add]
    refine ⟨h.buf.congr fun i hi => Function.update_of_ne (by rw [h.pos]; omega) _ _, ?_⟩
    simp [vMBPortTimersEnable, h.pos]
  · have h1 : (1 : U16).toNat = 1 := rfl
    simp only [vMBPortTimersEnable]
    rw [BitVec.toNat_add, h1, h.pos, List.length_append, List.length_singleton]
    omega

theorem receiveFSM_posted (q : Rtu) (b : U8) : (q.xMBRTUReceiveFSM b).posted = q.posted := by
  unfold xMBRTUReceiveFSM
  split
  · rfl
  · rfl
  · rfl
  · split_ifs <;> rfl

theorem Receiving.run {l : List U8} {r : Rtu} (bs : List U8) (h : Receiving l r)
    (hl : l.length + bs.length ≤ 256) :
    Receiving (l ++ bs) (bs.foldl xMBRTUReceiveFSM r) := by
  induction bs generalizing l r with
  | nil => simpa using h
  | cons b bs ih =>
    rw [List.length_cons] at hl
    have hnext := ih (h.step (by omega) b) (by rw [List.length_append, List.length_singleton]; omega)
    rwa [List.append_assoc] at hnext

theorem receive_posted (bs : List U8) (q : Rtu) :
    (bs.foldl xMBRTUReceiveFSM q).posted = q.posted := by
  induction bs generalizing q with
  | nil => rfl
  | cons b bs ih => rw [List.foldl_cons, ih, receiveFSM_posted]

theorem Receiving.accepted {s : U8} {pdu : List U8} {r : Rtu} (h : Receiving (rtuFrame s pdu) r)
    (hlen : 1 ≤ pdu.length ∧ pdu.length ≤ 253) :
    r.eMBRTUReceive = .ok (s, 1, BitVec.ofNat 16 pdu.length) ∧ Holds r.ucRTUBuf 1 pdu := by
  have hpos := h.pos
  rw [rtuFrame_length] at hpos
  have hcrc : usMBCRC16 r.ucRTUBuf 0 r.usRcvBufferPos.toNat = 0 := by
    rw [usMBCRC16_eq, h.pos]
    exact (congrArg crc16 h.buf).trans (rtuFrame_crc s pdu)
  have hmin : (4 : U16) ≤ r.usRcvBufferPos := by
    rw [BitVec.le_def, hpos]
    change 4 ≤ _
    omega
  obtain ⟨haddr, hpdu⟩ := holds_cons.mp (holds_append.mp h.buf).1
  refine ⟨?_, hpdu⟩
  have hlength : r.usRcvBufferPos - 1 - 2 = BitVec.ofNat 16 pdu.length := by
    apply BitVec.eq_of_toNat_eq
    have h1 : (1 : U16).toNat = 1 := rfl
    have h2 : (2 : U16).toNat = 2 := rfl
    rw [BitVec.toNat_sub, BitVec.toNat_sub, h1, h2, hpos, BitVec.toNat_ofNat]
    omega
  rw [eMBRTUReceive, if_pos ⟨hmin, hcrc⟩, haddr, hlength]

end Rtu

/-- A frame sent by `eMBRTUSend` and the transmit interrupts is what an idle receiver
accepts: address, PDU and CRC go out once each and in order, and come back as the
same address, PDU and length. -/
theorem send_receive_inverse (r : Rtu) (s : U8) (pdu : List U8) (hpdu : Holds r.ucRTUBuf 1 pdu)
    (hlen : 1 ≤ pdu.length ∧ pdu.length ≤ 253) (hidle : r.eRcvState = .idle) :
    (r.eMBRTUSend s 1 (BitVec.ofNat 16 pdu.length)).1 = .noErr ∧
    (let sent := (r.eMBRTUSend s 1 (BitVec.ofNat 16 pdu.length)).2
     let done := Rtu.xMBRTUTransmitFSM^[pdu.length + 3] sent
     (∀ k < pdu.length + 3, (Rtu.xMBRTUTransmitFSM^[k] sent).xTxEnable = true) ∧
       done.xTxEnable = false ∧ done.xRxEnable = true ∧ done.eSndState = .idle ∧
       done.put = r.put ++ rtuFrame s pdu ∧ done.posted = r.posted ++ [.frameSent]) ∧
    ∀ q : Rtu, q.eRcvState = .idle →
      let got := ((rtuFrame s pdu).foldl Rtu.xMBRTUReceiveFSM q).xMBRTUTimerT35Expired
      got.posted = q.posted ++ [.frameReceived] ∧
        got.xEventInQueue = true ∧ got.eQueuedEvent = .frameReceived ∧
        got.eMBRTUReceive = .ok (s, 1, BitVec.ofNat 16 pdu.length) ∧ Holds got.ucRTUBuf 1 pdu := by
  obtain ⟨hok, hsend⟩ := Rtu.eMBRTUSend_spec s hpdu hlen.2 hidle
  refine ⟨hok, ⟨fun k hk => ?_, ?_⟩, fun q hq => ?_⟩
  · exact (hsend.run k (by rw [rtuFrame_length]; omega)).enabled
  · have hlast := hsend.run (pdu.length + 2) (by rw [rtuFrame_length]; omega)
    rw [show 1 + (pdu.length + 2) = (rtuFrame s pdu).length by rw [rtuFrame_length]; omega] at hlast
    simp only [Function.iterate_succ_apply' _ (pdu.length + 2)]
    exact hlast.finish
  · have hrcv : Rtu.Receiving (rtuFrame s pdu) ((rtuFrame s pdu).foldl Rtu.xMBRTUReceiveFSM q) := by
      have htail : (pdu ++ [loByte (crc16 (s :: pdu)), hiByte (crc16 (s :: pdu))]).length ≤ 255 := by
        rw [List.length_append, List.length_cons, List.length_singleton]
        omega
      rw [rtuFrame_cons, List.foldl_cons]
      generalize pdu ++ [loByte (crc16 (s :: pdu)), hiByte (crc16 (s :: pdu))] = tail at htail
      exact (Rtu.receiveFSM_idle hq s).run tail (by rw [List.length_singleton]; omega)
    obtain ⟨hacc, hbuf⟩ := hrcv.accepted hlen
    have hposted := Rtu.receive_posted (rtuFrame s pdu) q
    simp only [Rtu.xMBRTUTimerT35Expired, hrcv.rcv]
    exact ⟨by rw [← hposted]; rfl, rfl, rfl, hacc, hbuf⟩

/-- Slave 1 sends a read request of two registers from an idle state, and an idle receiver
that is given the bytes sent accepts it. -/
theorem send_receive_inverse_read :
    ∃ r : Rtu, r.eRcvState = .idle ∧
      (Rtu.xMBRTUTransmitFSM^[8] (r.eMBRTUSend 1 1 5).2).put =
        [0x01, 0x03, 0x00, 0x01, 0x00, 0x02, 0x95, 0xCB] ∧
      (([0x01, 0x03, 0x00, 0x01, 0x00, 0x02, 0x95, 0xCB].foldl Rtu.xMBRTUReceiveFSM
        r).xMBRTUTimerT35Expired).eMBRTUReceive = .ok (1, 1, 5) := by
  let pdu : List U8 := [0x03, 0x00, 0x01, 0x00, 0x02]
  let r : Rtu := { (Mb.start 1 Slave.start fun k => (0 :: pdu).getD k 0).rtu with eRcvState := .idle }
  have hframe : rtuFrame 1 pdu = [0x01, 0x03, 0x00, 0x01, 0x00, 0x02, 0x95, 0xCB] := by decide
  obtain ⟨-, hsent, hgot⟩ :=
    send_receive_inverse r 1 pdu (by simp [r, pdu, Mb.start]) (by decide) rfl
  have hput := hsent.2.2.2.2.1
  have hreceived := (hgot r rfl).2.2.2.1
  rw [hframe] at hput hreceived
  exact ⟨r, rfl, hput, hreceived⟩

end Stm32F407
