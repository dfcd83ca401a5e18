import Stm32F407.Spec.ModbusSystem
import Stm32F407.Proofs.RtuLoopback

/-! Which frames `eMBPoll` executes. Receiving a frame and executing it are two
polls over one buffer that the receive interrupt goes on filling; as long as
every execution is in time, the PDU handed to a handler is the PDU of one
complete, checked frame for this slave. -/

namespace Stm32F407

open Lib

def AcceptedFrame (ucMBAddress : U8) (F : List U8) : Prop :=
  4 ≤ F.length ∧ crc16 F = 0 ∧ (F.head? = some ucMBAddress ∨ F.head? = some 0)

instance (a : U8) (F : List U8) : Decidable (AcceptedFrame a F) :=
  inferInstanceAs (Decidable (_ ∧ _))

def framePdu (F : List U8) : List U8 := (F.drop 1).take (F.length - 3)

/-- The handler was given the PDU of a complete frame received since `eMBEnable`. -/
def HandlerCall.OfFrame (ucMBAddress : U8) (c : HandlerCall) : Prop :=
  ∃ F ∈ c.frames, AcceptedFrame ucMBAddress F ∧ c.pdu = framePdu F

instance (a : U8) (c : HandlerCall) : Decidable (c.OfFrame a) :=
  inferInstanceAs (Decidable (∃ F ∈ c.frames, _))

theorem framePdu_length {F : List U8} (h : 4 ≤ F.length) : (framePdu F).length = F.length - 3 := by
  rw [framePdu, List.length_take, List.length_drop]
  omega

theorem holds_framePdu {f : ℕ → U8} {F : List U8} (h : Holds f 0 F) (hlen : 4 ≤ F.length) :
    Holds f 1 (framePdu F) := by
  obtain ⟨a, l, rfl⟩ := List.exists_cons_of_length_pos (show 0 < F.length by omega)
  have hl := (holds_cons.mp h).2
  rw [← List.take_append_drop (l.length - 2) l] at hl
  simpa [framePdu] using (holds_append.mp hl).1

namespace Rtu

variable {r : Rtu}

/-- Sending touches neither the receiver nor the event queue, and outside the idle
state nothing at all. -/
theorem eMBRTUSend_frame (r : Rtu) (a : U8) (p : ℕ) (len : U16) :
    (r.eMBRTUSend a p len).2.eRcvState = r.eRcvState ∧
      (r.eMBRTUSend a p len).2.xEventInQueue = r.xEventInQueue ∧
      (r.eRcvState ≠ .idle → (r.eMBRTUSend a p len).2 = r) := by
  unfold eMBRTUSend
  split_ifs with hidle
  · exact ⟨rfl, rfl, fun h => absurd hidle h⟩
  · exact ⟨rfl, rfl, fun _ => rfl⟩

/-- The transmit interrupt leaves the receiver alone; an event it posts is `EV_FRAME_SENT`. -/
theorem xMBRTUTransmitFSM_frame (r : Rtu) :
    r.xMBRTUTransmitFSM.eRcvState = r.eRcvState ∧ r.xMBRTUTransmitFSM.ucRTUBuf = r.ucRTUBuf ∧
      r.xMBRTUTransmitFSM.usRcvBufferPos = r.usRcvBufferPos ∧
      ((r.xMBRTUTransmitFSM.xEventInQueue = r.xEventInQueue ∧
          r.xMBRTUTransmitFSM.eQueuedEvent = r.eQueuedEvent) ∨
        r.xMBRTUTransmitFSM.eQueuedEvent = .frameSent) := by
  unfold xMBRTUTransmitFSM
  split
  · exact ⟨rfl, rfl, rfl, Or.inl ⟨rfl, rfl⟩⟩
  · split_ifs
    · exact ⟨rfl, rfl, rfl, Or.inl ⟨rfl, rfl⟩⟩
    · exact ⟨rfl, rfl, rfl, Or.inr rfl⟩

theorem receiveFSM_queue (r : Rtu) (b : U8) :
    (r.xMBRTUReceiveFSM b).xEventInQueue = r.xEventInQueue ∧
      (r.xMBRTUReceiveFSM b).eQueuedEvent = r.eQueuedEvent := by
  unfold xMBRTUReceiveFSM
  split
  · exact ⟨rfl, rfl⟩
  · exact ⟨rfl, rfl⟩
  · exact ⟨rfl, rfl⟩
  · split_ifs <;> exact ⟨rfl, rfl⟩

/-- What `eMBRTUReceive` accepts is a frame with a valid CRC; it returns its address,
the index and the length of its PDU. -/
theorem eMBRTUReceive_ok {F : List U8} {a : U8} {p : ℕ} {len : U16} (hbuf : Holds r.ucRTUBuf 0 F)
    (hpos : r.usRcvBufferPos.toNat = F.length) (h : r.eMBRTUReceive = .ok (a, p, len)) :
    4 ≤ F.length ∧ crc16 F = 0 ∧ F.head? = some a ∧ p = 1 ∧ len.toNat = F.length - 3 := by
  unfold eMBRTUReceive at h
  split_ifs at h with hchk
  obtain ⟨hmin, hcrc⟩ := hchk
  simp only [Except.ok.injEq, Prod.mk.injEq] at h
  obtain ⟨rfl, rfl, rfl⟩ := h
  rw [BitVec.le_def, hpos] at hmin
  have hmin : 4 ≤ F.length := hmin
  rw [usMBCRC16_eq, hpos] at hcrc
  have hlen : (r.usRcvBufferPos - 1 - 2).toNat = F.length - 3 := by
    have h1 : (1 : U16).toNat = 1 := rfl
    have h2 : (2 : U16).toNat = 2 := rfl
    have hlt := r.usRcvBufferPos.isLt
    rw [BitVec.toNat_sub, BitVec.toNat_sub, h1, h2, hpos]
    omega
  refine ⟨hmin, (congrArg crc16 hbuf).symm.trans hcrc, ?_, rfl, hlen⟩
  obtain ⟨b, l, rfl⟩ := List.exists_cons_of_length_pos (show 0 < F.length by omega)
  rw [List.head?_cons, (holds_cons.mp hbuf).1]

theorem eMBRTUReceive_short (hpos : r.usRcvBufferPos.toNat < 4) : r.eMBRTUReceive = .error .io := by
  rw [eMBRTUReceive, if_neg]
  intro h
  have hmin := BitVec.le_def.mp h.1
  have h4 : (4 : U16).toNat = 4 := rfl
  omega

end Rtu

def Mb.dequeue (m : Mb) : Mb := { m with rtu := { m.rtu with xEventInQueue := false } }

def Mb.handle (sz : RegSizes) (m : Mb) : EMBEventType → Mb
  | .ready | .frameSent => m
  | .frameReceived => m.pollFrameReceived
  | .execute => m.pollExecute sz

theorem Mb.eMBPoll_eq (sz : RegSizes) (m : Mb) :
    m.eMBPoll sz =
      if m.eMBState ≠ .enabled then m
      else if m.rtu.xEventInQueue then m.dequeue.handle sz m.rtu.eQueuedEvent
      else m := by
  unfold Mb.eMBPoll Mb.dequeue Mb.handle
  simp only
  cases m.rtu.eQueuedEvent <;> rfl

/-- Executing a request neither moves the receiver nor queues an event, and outside the
idle state the cell before the PDU keeps its byte. -/
theorem Mb.pollExecute_frame (sz : RegSizes) (m : Mb) :
    (m.pollExecute sz).ucMBAddress = m.ucMBAddress ∧
      (m.pollExecute sz).rtu.eRcvState = m.rtu.eRcvState ∧
      (m.pollExecute sz).rtu.xEventInQueue = m.rtu.xEventInQueue ∧
      (m.rtu.eRcvState ≠ .idle → m.ucMBFrame = 1 →
        (m.pollExecute sz).rtu.ucRTUBuf 0 = m.rtu.ucRTUBuf 0 ∧
          (m.pollExecute sz).rtu.usRcvBufferPos = m.rtu.usRcvBufferPos) := by
  have hzero : ∀ frame : ℕ → U8, m.ucMBFrame = 1 → m.storePdu frame 0 = m.rtu.ucRTUBuf 0 := by
    intro frame hone
    rw [Mb.storePdu, if_pos (by omega)]
  unfold Mb.pollExecute
  simp only
  split_ifs
  · obtain ⟨hst, hq, hsame⟩ := Rtu.eMBRTUSend_frame { m.rtu with ucRTUBuf := m.storePdu _ }
      m.ucMBAddress m.ucMBFrame _
    refine ⟨rfl, hst, hq, fun hbusy hone => ⟨?_, ?_⟩⟩
    · exact (congrFun (congrArg Rtu.ucRTUBuf (hsame hbusy)) 0).trans (hzero _ hone)
    · exact (congrArg Rtu.usRcvBufferPos (hsame hbusy)).trans rfl
  · exact ⟨rfl, rfl, rfl, fun _ hone => ⟨hzero _ hone, rfl⟩⟩

/-- While nothing late has happened, the receiver is idle or holds one byte of the next
frame, and an event in the queue belongs to a complete frame that is still in the
buffer: the whole of it before it is received, its PDU before it is executed. -/
structure MbInv (ucMBAddress : U8) (s : MbSystem) : Prop where
  addr : s.mb.ucMBAddress = ucMBAddress
  rcv : s.mb.rtu.eRcvState = .rcv → s.mb.rtu.Receiving s.cur
  short : s.mb.rtu.eRcvState = .rcv → s.cur.length ≤ 256
  early : s.late = false →
    s.mb.rtu.eRcvState = .idle ∨ s.mb.rtu.eRcvState = .rcv ∧ s.cur.length = 1
  received : s.late = false → s.mb.rtu.eRcvState = .idle → s.mb.Pending .frameReceived →
    ∃ F ∈ s.frames, Holds s.mb.rtu.ucRTUBuf 0 F ∧ s.mb.rtu.usRcvBufferPos.toNat = F.length
  execute : s.late = false → s.mb.Pending .execute →
    s.mb.ucMBFrame = 1 ∧ ∃ F ∈ s.frames, AcceptedFrame ucMBAddress F ∧
      s.mb.usLength.toNat = F.length - 3 ∧ Holds s.mb.rtu.ucRTUBuf 1 (framePdu F)
  calls : ∀ c ∈ s.calls, c.OfFrame ucMBAddress

namespace MbInv

variable {sz : RegSizes} {a : U8} {s : MbSystem}

/-- A step that leaves the receiver alone keeps the invariant if what it queues for
execution is an accepted frame. -/
theorem of_receiver {m : Mb} (h : MbInv a s) (haddr : m.ucMBAddress = s.mb.ucMBAddress)
    (hrcv : m.rtu.eRcvState = s.mb.rtu.eRcvState ∧ m.rtu.ucRTUBuf = s.mb.rtu.ucRTUBuf ∧
      m.rtu.usRcvBufferPos = s.mb.rtu.usRcvBufferPos)
    (hrec : m.Pending .frameReceived → s.mb.Pending .frameReceived)
    (hexec : s.late = false → m.Pending .execute → m.ucMBFrame = 1 ∧ ∃ F ∈ s.frames,
      AcceptedFrame a F ∧ m.usLength.toNat = F.length - 3 ∧ Holds m.rtu.ucRTUBuf 1 (framePdu F)) :
    MbInv a { s with mb := m } := by
  obtain ⟨hst, hbuf, hpos⟩ := hrcv
  refine ⟨haddr.trans h.addr, fun hr => ?_, fun hr => h.short (hst ▸ hr), ?_, fun hl hi hp => ?_,
    hexec, h.calls⟩
  · obtain ⟨-, hb, hp⟩ := h.rcv (hst ▸ hr)
    exact ⟨hr, hbuf ▸ hb, hpos ▸ hp⟩
  · simp only [hst]
    exact h.early
  · simp only [hbuf, hpos]
    exact h.received hl (hst ▸ hi) (hrec hp)

/-- The invariant does not depend on the enables, the transmitter and the handlers' data. -/
theorem congr {m : Mb} (h : MbInv a s)
    (hmb : m.ucMBAddress = s.mb.ucMBAddress ∧ m.ucMBFrame = s.mb.ucMBFrame ∧ m.usLength = s.mb.usLength)
    (hrcv : m.rtu.eRcvState = s.mb.rtu.eRcvState ∧ m.rtu.ucRTUBuf = s.mb.rtu.ucRTUBuf ∧
      m.rtu.usRcvBufferPos = s.mb.rtu.usRcvBufferPos)
    (hq : ∀ e, e = .frameReceived ∨ e = .execute → m.Pending e → s.mb.Pending e) :
    MbInv a { s with mb := m } := by
  refine h.of_receiver hmb.1 hrcv (hq _ (Or.inl rfl)) fun hl hp => ?_
  rw [hmb.2.1, hmb.2.2, hrcv.2.1]
  exact h.execute hl (hq _ (Or.inr rfl) hp)

/-- A byte in the idle state starts a frame; the PDU waiting for execution stays. -/
theorem byte_idle (h : MbInv a s) (hst : s.mb.rtu.eRcvState = .idle) (b : U8) :
    MbInv a { s with mb := { s.mb with rtu := s.mb.rtu.xMBRTUReceiveFSM b }, cur := [b] } := by
  have hnew := Rtu.receiveFSM_idle hst b
  have hkeep : ∀ i, 1 ≤ i → (s.mb.rtu.xMBRTUReceiveFSM b).ucRTUBuf i = s.mb.rtu.ucRTUBuf i := by
    intro i hi
    unfold Rtu.xMBRTUReceiveFSM
    rw [hst]
    exact Function.update_of_ne (by omega) _ _
  refine ⟨h.addr, fun _ => hnew, fun _ => by simp, fun _ => Or.inr ⟨hnew.rcv, rfl⟩, fun _ hi => ?_,
    fun hl hp => ?_, h.calls⟩
  · rw [hnew.rcv] at hi
    exact absurd hi nofun
  · obtain ⟨hq, hev⟩ := Rtu.receiveFSM_queue s.mb.rtu b
    obtain ⟨hone, F, hF, hacc, hlen, hbuf⟩ := h.execute hl ⟨hq ▸ hp.1, hev ▸ hp.2⟩
    exact ⟨hone, F, hF, hacc, hlen, hbuf.congr fun i _ => hkeep _ (by omega)⟩

/-- A further byte of a frame under reception makes everything in the queue late. -/
theorem byte_rcv (h : MbInv a s) (hst : s.mb.rtu.eRcvState = .rcv) (b : U8) :
    MbInv a { s with
      mb := { s.mb with rtu := s.mb.rtu.xMBRTUReceiveFSM b }, cur := s.cur ++ [b], late := true } := by
  have hrcv := h.rcv hst
  have hroom : (s.mb.rtu.xMBRTUReceiveFSM b).eRcvState = .rcv → s.cur.length < 256 := by
    intro hnext
    by_contra hfull
    have hpos : ¬s.mb.rtu.usRcvBufferPos < 256 := by
      rw [BitVec.lt_def, hrcv.pos]
      exact hfull
    unfold Rtu.xMBRTUReceiveFSM at hnext
    rw [hst] at hnext
    simp only [if_neg hpos] at hnext
    exact absurd hnext nofun
  refine ⟨h.addr, fun hnext => hrcv.step (hroom hnext) b, fun hnext => ?_, nofun, nofun, nofun, h.calls⟩
  have := hroom hnext
  simp only [List.length_append, List.length_singleton]
  omega

theorem byte (h : MbInv a s) (b : U8) : MbInv a (s.received b) := by
  have hquiet : s.mb.rtu.xMBRTUReceiveFSM b = s.mb.rtu.vMBPortTimersEnable →
      MbInv a { s with mb := { s.mb with rtu := s.mb.rtu.xMBRTUReceiveFSM b } } := by
    intro heq
    rw [heq]
    exact h.congr ⟨rfl, rfl, rfl⟩ ⟨rfl, rfl, rfl⟩ fun _ _ hp => hp
  unfold MbSystem.received
  cases hst : s.mb.rtu.eRcvState with
  | init => exact hquiet (by rw [Rtu.xMBRTUReceiveFSM, hst])
  | error => exact hquiet (by rw [Rtu.xMBRTUReceiveFSM, hst])
  | idle => exact h.byte_idle hst b
  | rcv => exact h.byte_rcv hst b

/-- T3.5 completes the frame under reception; whatever was in the queue is replaced. -/
theorem t35 (h : MbInv a s) : MbInv a s.expired := by
  unfold MbSystem.expired
  split_ifs with hst
  · have hrcv := h.rcv hst
    simp only [Rtu.xMBRTUTimerT35Expired, hst]
    refine ⟨h.addr, fun hr => ?_, fun hr => ?_, fun _ => Or.inl rfl, fun _ _ _ => ?_, fun _ hp => ?_,
      fun c hc => h.calls c hc⟩
    · cases hr
    · cases hr
    · exact ⟨s.cur, by simp, hrcv.buf, hrcv.pos⟩
    · cases hp.2
  · have hearly : s.late = false → s.mb.rtu.eRcvState = .idle := fun hl =>
      (h.early hl).resolve_right fun hr => hst hr.1
    have hq : ∀ e, s.late = false →
        ({ s.mb with rtu := s.mb.rtu.xMBRTUTimerT35Expired } : Mb).Pending e → s.mb.Pending e := by
      intro e hl hp
      simpa only [Mb.Pending, Rtu.xMBRTUTimerT35Expired, Rtu.vMBPortTimersDisable, hearly hl] using hp
    have hkeep : s.mb.rtu.xMBRTUTimerT35Expired.ucRTUBuf = s.mb.rtu.ucRTUBuf ∧
        s.mb.rtu.xMBRTUTimerT35Expired.usRcvBufferPos = s.mb.rtu.usRcvBufferPos := by
      unfold Rtu.xMBRTUTimerT35Expired
      split <;> exact ⟨rfl, rfl⟩
    refine ⟨h.addr, fun hr => ?_, fun hr => ?_, fun _ => Or.inl rfl, fun hl _ hp => ?_,
      fun hl hp => ?_, h.calls⟩
    · cases hr
    · cases hr
    · simp only [hkeep]
      exact h.received hl (hearly hl) (hq _ hl hp)
    · simp only [hkeep]
      exact h.execute hl (hq _ hl hp)

theorem txComplete (h : MbInv a s) : MbInv a s.transmitted := by
  obtain ⟨hst, hbuf, hpos, hq⟩ := Rtu.xMBRTUTransmitFSM_frame s.mb.rtu
  refine h.congr ⟨rfl, rfl, rfl⟩ ⟨hst, hbuf, hpos⟩ fun e he hp => ?_
  rcases hq with ⟨hin, hev⟩ | hev
  · exact ⟨hin ▸ hp.1, hev ▸ hp.2⟩
  · obtain rfl := hev.symm.trans hp.2
    rcases he with he | he <;> exact absurd he nofun

theorem disable (h : MbInv a s) : MbInv a s.disabled := by
  unfold MbSystem.disabled Mb.eMBDisable
  split_ifs
  · exact h.congr ⟨rfl, rfl, rfl⟩ ⟨rfl, rfl, rfl⟩ fun _ _ hp => hp
  · exact h

/-- After `eMBEnable` everything still in the queue is late. -/
theorem enable (h : MbInv a s) : MbInv a s.enabled := by
  unfold MbSystem.enabled Mb.eMBEnable
  split_ifs
  · exact ⟨h.addr, nofun, nofun, nofun, nofun, nofun, h.calls⟩
  · exact h

/-- A frame that `eMBPoll` receives in time is a complete one, and its PDU is what the
next poll executes. -/
theorem poll_received (h : MbInv a s) (hp : s.mb.Pending .frameReceived) :
    MbInv a { s with mb := s.mb.dequeue.pollFrameReceived } := by
  unfold Mb.pollFrameReceived
  cases hr : s.mb.dequeue.rtu.eMBRTUReceive with
  | error _ => exact h.congr ⟨rfl, rfl, rfl⟩ ⟨rfl, rfl, rfl⟩ fun _ _ hq => absurd hq.1 nofun
  | ok x =>
    obtain ⟨ucRcvAddress, ucMBFrame, usLength⟩ := x
    simp only
    split_ifs with haddr
    · refine h.of_receiver rfl ⟨rfl, rfl, rfl⟩ (fun hq => absurd hq.2 nofun) fun hl _ => ?_
      have hidle : s.mb.rtu.eRcvState = .idle := by
        refine (h.early hl).resolve_right fun hone => ?_
        have hpos := (h.rcv hone.1).pos
        rw [Rtu.eMBRTUReceive_short (by change s.mb.rtu.usRcvBufferPos.toNat < 4; omega)] at hr
        exact absurd hr nofun
      obtain ⟨F, hF, hbuf, hpos⟩ := h.received hl hidle hp
      obtain ⟨hmin, hcrc, hhead, rfl, hlen⟩ := Rtu.eMBRTUReceive_ok hbuf hpos hr
      refine ⟨rfl, F, hF, ⟨hmin, hcrc, ?_⟩, hlen, holds_framePdu hbuf hmin⟩
      rw [hhead, ← h.addr]
      exact haddr.imp (congrArg some) (congrArg some)
    · exact h.of_receiver rfl ⟨rfl, rfl, rfl⟩ (fun hq => absurd hq.1 nofun) fun _ hq => absurd hq.1 nofun

/-- An execution in time passes the PDU of an accepted frame, and it does not touch a
byte already received of the next frame. -/
theorem poll_execute (h : MbInv a s) (hp : s.mb.Pending .execute) (hl : s.late = false)
    (calls : List HandlerCall)
    (hcalls : ∀ c ∈ calls, c ∈ s.calls ∨ c = ⟨slice s.mb.pdu 0 s.mb.usLength.toNat, s.frames⟩) :
    MbInv a { s with mb := s.mb.dequeue.pollExecute sz, calls := calls } := by
  obtain ⟨hone, F, hF, hacc, hlen, hbuf⟩ := h.execute hl hp
  obtain ⟨haddr, hst, hq, hkeep⟩ := s.mb.dequeue.pollExecute_frame sz
  have hno : ∀ e, ¬(s.mb.dequeue.pollExecute sz).Pending e := fun e hp => absurd (hq.symm.trans hp.1) nofun
  refine ⟨haddr.trans h.addr, fun hr => ?_, fun hr => h.short (hst ▸ hr), fun _ => ?_,
    fun _ _ hp => absurd hp (hno _), fun _ hp => absurd hp (hno _), fun c hc => ?_⟩
  · have hr' : s.mb.rtu.eRcvState = .rcv := hst ▸ hr
    obtain ⟨-, hcur, hpos⟩ := h.rcv hr'
    have hbusy : s.mb.rtu.eRcvState ≠ .idle := by
      rw [hr']
      nofun
    obtain ⟨hzero, hsame⟩ := hkeep hbusy hone
    have hfirst : s.cur.length = 1 := ((h.early hl).resolve_left hbusy).2
    refine ⟨hr, hcur.congr fun i hi => ?_, hsame ▸ hpos⟩
    obtain rfl : i = 0 := by omega
    exact hzero
  · simp only [hst]
    exact h.early hl
  · rcases hcalls c hc with hc | rfl
    · exact h.calls c hc
    · refine ⟨F, hF, hacc, ?_⟩
      rw [hlen, ← framePdu_length hacc.1]
      refine Eq.trans (slice_eq_iff.mpr fun i _ => ?_) hbuf
      rw [Mb.pdu, hone, Nat.zero_add]

theorem poll (h : MbInv a s) (hin : s.mb.Executes → s.late = false) : MbInv a (s.polled sz) := by
  unfold MbSystem.polled
  by_cases hex : s.mb.Executes
  · have hpoll : s.mb.eMBPoll sz = s.mb.dequeue.pollExecute sz := by
      rw [Mb.eMBPoll_eq, if_neg (not_not_intro hex.1), if_pos hex.2.1, hex.2.2]
      rfl
    rw [hpoll]
    split_ifs
    · refine h.poll_execute hex.2 (hin hex) _ fun c hc => ?_
      simpa [or_comm] using hc
    · exact h.poll_execute hex.2 (hin hex) _ fun c hc => Or.inl hc
  · rw [if_neg fun hc => hex hc.1]
    simp only [Mb.eMBPoll_eq]
    split_ifs with hen hq
    · exact h
    · unfold Mb.handle
      cases hev : s.mb.rtu.eQueuedEvent with
      | frameReceived => exact h.poll_received ⟨hq, hev⟩
      | execute => exact absurd ⟨not_not.mp hen, hq, hev⟩ hex
      | ready => exact h.congr ⟨rfl, rfl, rfl⟩ ⟨rfl, rfl, rfl⟩ fun _ _ hp => absurd hp.1 nofun
      | frameSent => exact h.congr ⟨rfl, rfl, rfl⟩ ⟨rfl, rfl, rfl⟩ fun _ _ hp => absurd hp.1 nofun
    · exact h

theorem step {s' : MbSystem} {e : MbEvent} (h : MbInv a s) (hs : Guarded (MbStep sz) InTime s e s') :
    MbInv a s' := by
  obtain ⟨hin, -, rfl⟩ := hs
  cases e with
  | byte b => exact h.byte b
  | t35 => exact h.t35
  | txComplete => exact h.txComplete
  | poll => exact h.poll (hin rfl)
  | disable => exact h.disable
  | enable => exact h.enable

end MbInv

theorem mbInv_start (a : U8) (slave : Slave) (buf : ℕ → U8) : MbInv a (MbSystem.start a slave buf) :=
  ⟨rfl, nofun, nofun, nofun, nofun, nofun, nofun⟩

/-- In every run whose executions are in time, a handler is called only with the PDU and
length of one complete frame that was received since `eMBEnable`, passed the CRC and
length test, and was addressed to this slave or to all. -/
theorem executes_received_frames (sz : RegSizes) (ucMBAddress : U8) (slave : Slave) (buf : ℕ → U8)
    {evs : List MbEvent} {s : MbSystem}
    (hrun : Run (Guarded (MbStep sz) InTime) (MbSystem.start ucMBAddress slave buf) evs s) :
    ∀ c ∈ s.calls, c.OfFrame ucMBAddress :=
  (hrun.invariant (mbInv_start _ _ _) fun _ _ _ h hs => h.step hs).calls

/-- Slave 1 receives the frame `01 11 C0 2C` and calls the handler of function code 17. -/
def reportEvents : List MbEvent :=
  [.enable, .t35, .byte 0x01, .byte 0x11, .byte 0xC0, .byte 0x2C, .t35, .poll, .poll]

theorem executes_received_frames_report :
    ∃ s, Run (Guarded (MbStep regSizes) InTime) (MbSystem.start 1 Slave.start fun _ => 0) reportEvents s ∧
      s.calls = [⟨[0x11], [[0x01, 0x11, 0xC0, 0x2C]]⟩] ∧ ∀ c ∈ s.calls, c.OfFrame 1 := by
  have hadm : Admitted (MbSystem.next regSizes) (fun s e => InTime s e ∧ s.Ready e)
      (MbSystem.start 1 Slave.start fun _ => 0) reportEvents := by decide +kernel
  have hrun : Run (Guarded (MbStep regSizes) InTime) _ reportEvents _ :=
    Run.of_admitted (fun s e h => ⟨h.1, h.2, rfl⟩) hadm
  exact ⟨_, hrun, by decide +kernel, executes_received_frames regSizes 1 Slave.start _ hrun⟩

/-- The same frame, with two bytes of the next one before the second poll: function
code 6 is executed, which no frame has asked for. -/
theorem executes_unreceived_pdu :
    ¬ ∀ (sz : RegSizes) (ucMBAddress : U8) (slave : Slave) (buf : ℕ → U8) (evs : List MbEvent)
      (s : MbSystem), Run (MbStep sz) (MbSystem.start ucMBAddress slave buf) evs s →
        ∀ c ∈ s.calls, c.OfFrame ucMBAddress := by
  intro hall
  let evs : List MbEvent :=
    [.enable, .t35, .byte 0x01, .byte 0x11, .byte 0xC0, .byte 0x2C, .t35, .poll, .byte 0x02,
      .byte 0x06, .poll]
  have hadm : Admitted (MbSystem.next regSizes) MbSystem.Ready
      (MbSystem.start 1 Slave.start fun _ => 0) evs := by decide +kernel
  have hcalls : (evs.foldl (MbSystem.next regSizes) (MbSystem.start 1 Slave.start fun _ => 0)).calls =
      [⟨[0x06], [[0x01, 0x11, 0xC0, 0x2C]]⟩] := by decide +kernel
  have hrun : Run (MbStep regSizes) _ evs _ := Run.of_admitted (fun s e h => ⟨h, rfl⟩) hadm
  have hno : ¬(⟨[0x06], [[0x01, 0x11, 0xC0, 0x2C]]⟩ : HandlerCall).OfFrame 1 := by decide
  exact hno (hall regSizes 1 Slave.start _ evs _ hrun _ (by rw [hcalls]; exact List.mem_singleton_self _))

end Stm32F407
