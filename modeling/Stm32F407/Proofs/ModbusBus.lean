import Stm32F407.Proofs.ModbusFrames
import Stm32F407.Proofs.ModbusReply

/-! A master and the slave on one line. The master is one that waits: it sends a frame
only on a quiet line and while the slave listens, so not before the slave has polled and
handled the request before. The bytes come in one by one, and the interrupts and
`eMBPoll` run in any order. What the slave puts on the line is then what a server that
takes the requests one at a time would answer. -/

namespace Stm32F407

open Lib

/-- Slave address and PDU. -/
abbrev Request := U8 × List U8

def Request.pdu (q : Request) : ℕ → U8 := blit (fun _ => 0) 0 q.2

def Request.len (q : Request) : U16 := BitVec.ofNat 16 q.2.length

/-- A PDU of a legal length which, if the slave at `ucMBAddress` executes it, holds all
the data that it announces. -/
def Request.Fits (sz : RegSizes) (ucMBAddress : U8) (q : Request) : Prop :=
  1 ≤ q.2.length ∧ q.2.length ≤ 253 ∧
    (q.1 = ucMBAddress ∨ q.1 = 0 → ¬ Overruns sz q.pdu q.len)

instance (sz : RegSizes) (f : ℕ → U8) (len : U16) : Decidable (Overruns sz f len) :=
  inferInstanceAs (Decidable (_ ∨ _))

instance (sz : RegSizes) (a : U8) (q : Request) : Decidable (q.Fits sz a) :=
  inferInstanceAs (Decidable (_ ∧ _ ∧ (_ → _)))

structure Server where
  slave : Slave
  put : List U8

/-- A request to the slave is executed and answered, a broadcast is executed, and a
request to another slave is nothing to this one. -/
def Server.step (sz : RegSizes) (ucMBAddress : U8) (v : Server) (q : Request) : Server :=
  let out := execute sz v.slave q.pdu q.len
  if q.1 = 0 then { v with slave := { v.slave with regs := out.regs } }
  else if q.1 = ucMBAddress then
    { slave := { v.slave with regs := out.regs }, put := v.put ++ rtuFrame ucMBAddress out.reply }
  else v

def serveRequests (sz : RegSizes) (ucMBAddress : U8) (slave : Slave) (qs : List Request) : Server :=
  qs.foldl (Server.step sz ucMBAddress) ⟨slave, []⟩

/-- `line` is what the slave has not yet received of the master's frame, `requests`
what the master has sent so far. -/
structure MbBus where
  slave : MbSystem
  line : List U8
  requests : List Request

inductive BusEvent where
  | request (q : Request)
  | slave (e : MbEvent)
  deriving DecidableEq

def Mb.Listening (m : Mb) : Prop :=
  m.rtu.eRcvState = .idle ∧ m.rtu.eSndState = .idle ∧
    ¬ m.Pending .frameReceived ∧ ¬ m.Pending .execute

instance (m : Mb) : Decidable m.Listening := inferInstanceAs (Decidable (_ ∧ _))

namespace MbBus

/-- The line and a master that waits. Nothing in `mb.c` makes a master wait: a request sent on
a quiet line before the last one is handled takes its place in the event slot. The bytes
arrive in the order of the frame, T3.5 does not run out within a frame, and the stack
stays enabled. -/
def Ready (sz : RegSizes) (b : MbBus) : BusEvent → Prop
  | .request q => b.line = [] ∧ b.slave.mb.Listening ∧ q.Fits sz b.slave.mb.ucMBAddress
  | .slave (.byte ucByte) => b.line.head? = some ucByte ∧ b.slave.Ready (.byte ucByte)
  | .slave .t35 => b.line = [] ∧ b.slave.Ready .t35
  | .slave .txComplete => b.slave.Ready .txComplete
  | .slave .poll => True
  | .slave .disable | .slave .enable => False

instance (sz : RegSizes) (b : MbBus) : (e : BusEvent) → Decidable (b.Ready sz e)
  | .request _ => inferInstanceAs (Decidable (_ ∧ _))
  | .slave (.byte _) => inferInstanceAs (Decidable (_ ∧ _))
  | .slave .t35 => inferInstanceAs (Decidable (_ ∧ _))
  | .slave .txComplete => inferInstanceAs (Decidable (b.slave.Ready .txComplete))
  | .slave .poll => inferInstanceAs (Decidable True)
  | .slave .disable | .slave .enable => inferInstanceAs (Decidable False)

def next (sz : RegSizes) (b : MbBus) : BusEvent → MbBus
  | .request q => { b with line := rtuFrame q.1 q.2, requests := b.requests ++ [q] }
  | .slave (.byte ucByte) => { b with slave := b.slave.received ucByte, line := b.line.tail }
  | .slave e => { b with slave := b.slave.next sz e }

def start (ucSlaveAddress : U8) (slave : Slave) (buf : ℕ → U8) : MbBus :=
  ⟨(MbSystem.start ucSlaveAddress slave buf).enabled, [], []⟩

end MbBus

def BusStep (sz : RegSizes) (b : MbBus) (e : BusEvent) (b' : MbBus) : Prop :=
  b.Ready sz e ∧ b' = b.next sz e

variable {sz : RegSizes} {a : U8} {v : Server} {q : Request} {m : Mb}

theorem serveRequests_snoc (sz : RegSizes) (a : U8) (slave : Slave) (qs : List Request) (q : Request) :
    serveRequests sz a slave (qs ++ [q]) = (serveRequests sz a slave qs).step sz a q := by
  rw [serveRequests, List.foldl_append]
  rfl

namespace Server

def reply (sz : RegSizes) (v : Server) (q : Request) : List U8 :=
  (execute sz v.slave q.pdu q.len).reply

theorem step_other (h0 : q.1 ≠ 0) (ha : q.1 ≠ a) : v.step sz a q = v := by
  simp only [step, if_neg h0, if_neg ha]

theorem step_put_prefix : v.put <+: (v.step sz a q).put := by
  unfold step
  simp only
  split_ifs
  · exact List.prefix_rfl
  · exact List.prefix_append _ _
  · exact List.prefix_rfl

theorem step_idFits (h : v.slave.IdFits) : (v.step sz a q).slave.IdFits := by
  unfold step
  simp only
  split_ifs <;> exact h

end Server

theorem serveRequests_idFits {slave : Slave} (h : slave.IdFits) (qs : List Request) :
    (serveRequests sz a slave qs).slave.IdFits := by
  induction qs using List.reverseRecOn with
  | nil => exact h
  | append_singleton qs q ih =>
    rw [serveRequests_snoc]
    exact Server.step_idFits ih

theorem Request.len_toNat {q : Request} (h : q.2.length ≤ 253) : q.len.toNat = q.2.length := by
  rw [Request.len, BitVec.toNat_ofNat]
  omega

namespace Bus

structure Serving (a : U8) (v : Server) (m : Mb) : Prop where
  state : m.eMBState = .enabled
  addr : m.ucMBAddress = a
  slave : m.slave = v.slave
  snd : m.rtu.eSndState = .idle
  rx : m.rtu.xRxEnable = true
  put : m.rtu.put = v.put

def NoFrame (m : Mb) : Prop := ¬ m.Pending .frameReceived ∧ ¬ m.Pending .execute

structure Listens (a : U8) (v : Server) (m : Mb) : Prop extends Serving a v m where
  rcv : m.rtu.eRcvState = .idle
  queue : NoFrame m

structure Starts (a : U8) (v : Server) (m : Mb) : Prop extends Serving a v m where
  rcv : m.rtu.eRcvState = .init
  timer : m.rtu.timersEnabled = true
  queue : NoFrame m

structure Receives (a : U8) (v : Server) (got : List U8) (m : Mb) : Prop extends Serving a v m where
  rcv : got = [] ∧ m.rtu.eRcvState = .idle ∨ m.rtu.Receiving got ∧ m.rtu.timersEnabled = true
  queue : NoFrame m

structure HasFrame (a : U8) (v : Server) (q : Request) (m : Mb) : Prop extends Serving a v m where
  rcv : m.rtu.eRcvState = .idle
  buf : Holds m.rtu.ucRTUBuf 0 (rtuFrame q.1 q.2)
  pos : m.rtu.usRcvBufferPos.toNat = (rtuFrame q.1 q.2).length
  pending : m.Pending .frameReceived

structure Taken (a : U8) (v : Server) (q : Request) (m : Mb) : Prop extends Serving a v m where
  dest : q.1 = a ∨ q.1 = 0
  rcv : m.rtu.eRcvState = .idle
  frame : m.ucMBFrame = 1
  source : m.ucRcvAddress = q.1
  length : m.usLength = q.len
  buf : Holds m.rtu.ucRTUBuf 1 q.2

structure Accepted (a : U8) (v : Server) (q : Request) (m : Mb) : Prop extends Taken a v q m where
  pending : m.Pending .execute

structure Replies (sz : RegSizes) (a : U8) (v : Server) (q : Request) (i : ℕ) (m : Mb) : Prop where
  state : m.eMBState = .enabled
  addr : m.ucMBAddress = a
  dest : q.1 = a ∧ q.1 ≠ 0
  slave : m.slave = (v.step sz a q).slave
  rcv : m.rtu.eRcvState = .idle
  empty : m.rtu.xEventInQueue = false
  bound : i ≤ (rtuFrame a (v.reply sz q)).length
  sending : ∃ posted, m.rtu.Sending (rtuFrame a (v.reply sz q)) i v.put posted

theorem Serving.congr {m' : Mb} (h : Serving a v m) (hstate : m'.eMBState = m.eMBState)
    (haddr : m'.ucMBAddress = m.ucMBAddress) (hslave : m'.slave = m.slave)
    (hsnd : m'.rtu.eSndState = m.rtu.eSndState) (hrx : m'.rtu.xRxEnable = true)
    (hput : m'.rtu.put = m.rtu.put) : Serving a v m' :=
  ⟨hstate.trans h.state, haddr.trans h.addr, hslave.trans h.slave, hsnd.trans h.snd, hrx,
    hput.trans h.put⟩

theorem NoFrame.dequeue (m : Mb) : NoFrame m.dequeue :=
  ⟨fun h => Bool.false_ne_true h.1, fun h => Bool.false_ne_true h.1⟩

/-- An `eMBPoll` without a frame in the queue takes at most an event away. -/
theorem NoFrame.poll (h : NoFrame m) : m.eMBPoll sz = m ∨ m.eMBPoll sz = m.dequeue := by
  rw [Mb.eMBPoll_eq]
  split_ifs with hen hq
  · exact Or.inl rfl
  · unfold Mb.handle
    cases hev : m.rtu.eQueuedEvent with
    | ready => exact Or.inr rfl
    | frameSent => exact Or.inr rfl
    | frameReceived => exact absurd ⟨hq, hev⟩ h.1
    | execute => exact absurd ⟨hq, hev⟩ h.2
  · exact Or.inl rfl

/-- The step from `m` to `m'` is one that no phase but a transmission notices. -/
structure Unnoticed (m m' : Mb) : Prop where
  own : m'.eMBState = m.eMBState ∧ m'.ucMBAddress = m.ucMBAddress ∧ m'.slave = m.slave ∧
    m'.ucMBFrame = m.ucMBFrame ∧ m'.ucRcvAddress = m.ucRcvAddress ∧ m'.usLength = m.usLength
  snd : m'.rtu.eSndState = m.rtu.eSndState
  rcv : m'.rtu.eRcvState = m.rtu.eRcvState
  buf : m'.rtu.ucRTUBuf = m.rtu.ucRTUBuf
  pos : m'.rtu.usRcvBufferPos = m.rtu.usRcvBufferPos
  put : m'.rtu.put = m.rtu.put
  rx : m.rtu.xRxEnable = true → m'.rtu.xRxEnable = true
  timer : m.rtu.eRcvState ≠ .idle → m'.rtu.timersEnabled = m.rtu.timersEnabled
  queue : (m'.rtu.xEventInQueue = m.rtu.xEventInQueue ∧ m'.rtu.eQueuedEvent = m.rtu.eQueuedEvent) ∨
    NoFrame m ∧ NoFrame m'

namespace Unnoticed

variable {m' : Mb}

theorem refl (m : Mb) : Unnoticed m m :=
  ⟨⟨rfl, rfl, rfl, rfl, rfl, rfl⟩, rfl, rfl, rfl, rfl, rfl, id, fun _ => rfl, Or.inl ⟨rfl, rfl⟩⟩

/-- A poll that fetches no frame. -/
theorem poll (h : NoFrame m) : Unnoticed m (m.eMBPoll sz) := by
  rcases h.poll with heq | heq
  · rw [heq]
    exact refl m
  · rw [heq]
    exact ⟨⟨rfl, rfl, rfl, rfl, rfl, rfl⟩, rfl, rfl, rfl, rfl, rfl, id, fun _ => rfl,
      Or.inr ⟨h, NoFrame.dequeue m⟩⟩

/-- A transmit interrupt while nothing is sent. -/
theorem tx (h : m.rtu.eSndState = .idle) :
    Unnoticed m { m with rtu := m.rtu.xMBRTUTransmitFSM } := by
  unfold Rtu.xMBRTUTransmitFSM
  rw [h]
  exact ⟨⟨rfl, rfl, rfl, rfl, rfl, rfl⟩, rfl, rfl, rfl, rfl, rfl, fun _ => rfl, fun _ => rfl,
    Or.inl ⟨rfl, rfl⟩⟩

/-- T3.5 while nothing is received. -/
theorem t35 (h : m.rtu.eRcvState = .idle) :
    Unnoticed m { m with rtu := m.rtu.xMBRTUTimerT35Expired } := by
  unfold Rtu.xMBRTUTimerT35Expired
  rw [h]
  exact ⟨⟨rfl, rfl, rfl, rfl, rfl, rfl⟩, rfl, h.symm, rfl, rfl, rfl, id, fun hne => absurd h hne,
    Or.inl ⟨rfl, rfl⟩⟩

theorem noFrame (hu : Unnoticed m m') (h : NoFrame m) : NoFrame m' := by
  rcases hu.queue with ⟨hin, hev⟩ | ⟨-, hno⟩
  · exact ⟨fun hp => h.1 ⟨hin ▸ hp.1, hev ▸ hp.2⟩, fun hp => h.2 ⟨hin ▸ hp.1, hev ▸ hp.2⟩⟩
  · exact hno

theorem pending (hu : Unnoticed m m') {e : EMBEventType} (he : e = .frameReceived ∨ e = .execute)
    (hp : m.Pending e) : m'.Pending e := by
  rcases hu.queue with ⟨hin, hev⟩ | ⟨hno, -⟩
  · exact ⟨hin.trans hp.1, hev.trans hp.2⟩
  · rcases he with rfl | rfl
    · exact absurd hp hno.1
    · exact absurd hp hno.2

theorem serving (hu : Unnoticed m m') (h : Serving a v m) : Serving a v m' :=
  h.congr hu.own.1 hu.own.2.1 hu.own.2.2.1 hu.snd (hu.rx h.rx) hu.put

theorem starts (hu : Unnoticed m m') (h : Starts a v m) : Starts a v m' := by
  have hbusy : m.rtu.eRcvState ≠ .idle := by simp [h.rcv]
  exact ⟨hu.serving h.toServing, hu.rcv.trans h.rcv, (hu.timer hbusy).trans h.timer, hu.noFrame h.queue⟩

theorem listens (hu : Unnoticed m m') (h : Listens a v m) : Listens a v m' :=
  ⟨hu.serving h.toServing, hu.rcv.trans h.rcv, hu.noFrame h.queue⟩

theorem receives {got : List U8} (hu : Unnoticed m m') (h : Receives a v got m) :
    Receives a v got m' := by
  refine ⟨hu.serving h.toServing, ?_, hu.noFrame h.queue⟩
  rcases h.rcv with ⟨hnil, hidle⟩ | ⟨hrcv, ht⟩
  · exact Or.inl ⟨hnil, hu.rcv.trans hidle⟩
  · have hbusy : m.rtu.eRcvState ≠ .idle := by simp [hrcv.rcv]
    exact Or.inr ⟨⟨hu.rcv.trans hrcv.rcv, hu.buf ▸ hrcv.buf, hu.pos ▸ hrcv.pos⟩,
      (hu.timer hbusy).trans ht⟩

theorem hasFrame (hu : Unnoticed m m') (h : HasFrame a v q m) : HasFrame a v q m' :=
  ⟨hu.serving h.toServing, hu.rcv.trans h.rcv, hu.buf ▸ h.buf, hu.pos ▸ h.pos,
    hu.pending (Or.inl rfl) h.pending⟩

theorem accepted (hu : Unnoticed m m') (h : Accepted a v q m) : Accepted a v q m' := by
  obtain ⟨-, -, -, hframe, hsource, hlen⟩ := hu.own
  exact ⟨⟨hu.serving h.toServing, h.dest, hu.rcv.trans h.rcv, hframe.trans h.frame,
    hsource.trans h.source, hlen.trans h.length, hu.buf ▸ h.buf⟩, hu.pending (Or.inr rfl) h.pending⟩

end Unnoticed

theorem Starts.t35 (h : Starts a v m) :
    Listens a v { m with rtu := m.rtu.xMBRTUTimerT35Expired } := by
  unfold Rtu.xMBRTUTimerT35Expired
  rw [h.rcv]
  refine ⟨h.toServing.congr rfl rfl rfl rfl h.rx rfl, rfl, fun hp => ?_, fun hp => ?_⟩
  · cases hp.2
  · cases hp.2

theorem Listens.request (h : Listens a v m) : Receives a v [] m :=
  ⟨h.toServing, Or.inl ⟨rfl, h.rcv⟩, h.queue⟩

theorem Receives.byte {got : List U8} (h : Receives a v got m) (hlen : got.length < 256) (b : U8) :
    Receives a v (got ++ [b]) { m with rtu := m.rtu.xMBRTUReceiveFSM b } := by
  obtain ⟨hsnd, hrx, -⟩ := m.rtu.receiveFSM_port b
  obtain ⟨hq, hev⟩ := m.rtu.receiveFSM_queue b
  have hput : (m.rtu.xMBRTUReceiveFSM b).put = m.rtu.put := by
    unfold Rtu.xMBRTUReceiveFSM
    split
    · rfl
    · rfl
    · rfl
    · split_ifs <;> rfl
  have htimer : (m.rtu.xMBRTUReceiveFSM b).timersEnabled = true := by
    unfold Rtu.xMBRTUReceiveFSM
    split
    · rfl
    · rfl
    · rfl
    · split_ifs <;> rfl
  have hkeep : ∀ e, ({ m with rtu := m.rtu.xMBRTUReceiveFSM b } : Mb).Pending e → m.Pending e :=
    fun e hp => ⟨hq ▸ hp.1, hev ▸ hp.2⟩
  refine ⟨h.toServing.congr rfl rfl rfl hsnd (hrx.trans h.rx) hput, Or.inr ⟨?_, htimer⟩,
    fun hp => h.queue.1 (hkeep _ hp), fun hp => h.queue.2 (hkeep _ hp)⟩
  rcases h.rcv with ⟨rfl, hidle⟩ | ⟨hrcv, -⟩
  · exact Rtu.receiveFSM_idle hidle b
  · exact hrcv.step hlen b

theorem Receives.t35 (h : Receives a v (rtuFrame q.1 q.2) m) :
    HasFrame a v q { m with rtu := m.rtu.xMBRTUTimerT35Expired } := by
  rcases h.rcv with ⟨hnil, -⟩ | ⟨hrcv, -⟩
  · exact absurd (congrArg List.length hnil) (by simp)
  · unfold Rtu.xMBRTUTimerT35Expired
    rw [hrcv.rcv]
    exact ⟨h.toServing.congr rfl rfl rfl rfl h.rx rfl, rfl, hrcv.buf, hrcv.pos, rfl, rfl⟩

/-- `eMBPoll` accepts the frame if it is for this slave, and forgets it otherwise. -/
theorem HasFrame.poll (h : HasFrame a v q m) (hlen : 1 ≤ q.2.length ∧ q.2.length ≤ 253) :
    Accepted a v q (m.eMBPoll sz) ∨ Listens a (v.step sz a q) (m.eMBPoll sz) := by
  have hrcv : Rtu.Receiving (rtuFrame q.1 q.2) { m.rtu with eRcvState := .rcv } :=
    ⟨rfl, h.buf, h.pos⟩
  obtain ⟨hok, hpdu⟩ := hrcv.accepted hlen
  have hok : m.dequeue.rtu.eMBRTUReceive = .ok (q.1, 1, BitVec.ofNat 16 q.2.length) := hok
  have hserving : Serving a v m.dequeue := h.toServing.congr rfl rfl rfl rfl h.rx rfl
  rw [Mb.eMBPoll_eq, if_neg (not_not_intro h.state), if_pos h.pending.1, h.pending.2]
  unfold Mb.handle Mb.pollFrameReceived
  simp only [hok]
  split_ifs with hdest
  · have hdest : q.1 = a ∨ q.1 = 0 := by rwa [← h.addr]
    exact Or.inl ⟨⟨hserving.congr rfl rfl rfl rfl h.rx rfl, hdest, h.rcv, rfl, rfl, rfl, hpdu⟩, rfl, rfl⟩
  · have hdest : ¬(q.1 = a ∨ q.1 = 0) := by rwa [← h.addr]
    rw [Server.step_other (fun h0 => hdest (Or.inr h0)) fun ha => hdest (Or.inl ha)]
    exact Or.inr ⟨hserving.congr rfl rfl rfl rfl h.rx rfl, h.rcv, NoFrame.dequeue m⟩

theorem Taken.dequeue (h : Taken a v q m) : Taken a v q m.dequeue :=
  ⟨h.toServing.congr rfl rfl rfl rfl h.rx rfl, h.dest, h.rcv, h.frame, h.source, h.length, h.buf⟩

/-- The PDU in `ucRTUBuf` gives the server's reply and registers. -/
theorem Taken.agrees (h : Taken a v q m) (hfit : q.Fits sz a) :
    (execute sz m.slave m.pdu m.usLength).reply = v.reply sz q ∧
      (execute sz m.slave m.pdu m.usLength).regs = (execute sz v.slave q.pdu q.len).regs := by
  obtain ⟨hmin, hmax, hover⟩ := hfit
  have hlen := Request.len_toNat hmax
  have hreq : Holds q.pdu 0 q.2 := holds_blit _ _ _
  have hsame : ∀ i < q.len.toNat, m.pdu i = q.pdu i := by
    intro i hi
    have heq : slice m.rtu.ucRTUBuf 1 q.2.length = slice q.pdu 0 q.2.length := h.buf.trans hreq.symm
    have hcell := slice_eq_iff.mp heq i (by omega)
    rw [Nat.zero_add] at hcell
    rw [Mb.pdu, h.frame, hcell]
  rw [h.slave, h.length]
  exact dependsOnReceived_of_fits (by omega) (hover h.dest) m.pdu hsame

theorem Taken.confined (h : Taken a v q m) (hfit : q.Fits sz a) (hid : v.slave.IdFits) :
    Confined m.pdu (execute sz m.slave m.pdu m.usLength) := by
  have hlen := Request.len_toNat hfit.2.1
  rw [h.slave, h.length]
  refine execute_confined hid ?_ ?_
  · rw [hlen]
    exact hfit.1
  · rw [hlen]
    exact hfit.2.1

/-- A broadcast is executed and not answered. -/
theorem Taken.broadcast (h : Taken a v q m) (hfit : q.Fits sz a) (h0 : q.1 = 0) (hq : NoFrame m) :
    Listens a (v.step sz a q) (m.pollExecute sz) := by
  have hregs := (h.agrees hfit).2
  rw [execute, errorFrame_regs] at hregs
  have hslave : (v.step sz a q).slave =
      { m.slave with regs := (dispatch sz m.slave m.pdu m.usLength).regs } := by
    rw [hregs, h.slave]
    simp only [Server.step, if_pos h0]
  have hput : (v.step sz a q).put = v.put := by simp only [Server.step, if_pos h0]
  have hsource : ¬ m.ucRcvAddress ≠ 0 := not_not_intro (h.source.trans h0)
  unfold Mb.pollExecute
  simp only [if_neg hsource]
  exact ⟨⟨h.state, h.addr, hslave.symm, h.snd, h.rx, h.put.trans hput.symm⟩, h.rcv, hq⟩

/-- The reply that a handler leaves in the buffer is sent as a frame. -/
theorem send_reply {m : Mb} (hframe : m.ucMBFrame = 1) (hrcv : m.rtu.eRcvState = .idle)
    {out : HandlerResult} (hconf : Confined m.pdu out) :
    Rtu.Sending (rtuFrame a out.reply) 1 m.rtu.put m.rtu.posted
      (({ m.rtu with ucRTUBuf := m.storePdu out.frame } : Rtu).eMBRTUSend a 1 out.usLen).2 := by
  have hlen : out.reply.length = out.usLen.toNat := slice_length _ _ _
  have hbuf : Holds (m.storePdu out.frame) 1 out.reply := by
    rw [Holds, hlen]
    refine slice_eq_iff.mpr fun i _ => ?_
    rw [Mb.storePdu, hframe, if_neg (by omega), Nat.add_sub_cancel_left, Nat.zero_add]
  have hsend := (Rtu.eMBRTUSend_spec (r := { m.rtu with ucRTUBuf := m.storePdu out.frame }) a hbuf
    (hlen ▸ hconf.short) hrcv).2
  rwa [hlen, BitVec.ofNat_toNat, BitVec.setWidth_eq] at hsend

theorem Taken.answer (h : Taken a v q m) (hfit : q.Fits sz a) (hid : v.slave.IdFits) (h0 : q.1 ≠ 0)
    (hq : m.rtu.xEventInQueue = false) : Replies sz a v q 1 (m.pollExecute sz) := by
  have hdest : q.1 = a := h.dest.resolve_right h0
  obtain ⟨hreply, hregs⟩ := h.agrees hfit
  have hconf := h.confined hfit hid
  have hslave : (v.step sz a q).slave =
      { m.slave with regs := (execute sz m.slave m.pdu m.usLength).regs } := by
    rw [hregs, h.slave]
    simp only [Server.step, if_neg h0, if_pos hdest]
  have hsource : m.ucRcvAddress ≠ 0 := fun hz => h0 (h.source.symm.trans hz)
  have hout : errorFrame (m.pdu 0) (dispatch sz m.slave m.pdu m.usLength) =
      execute sz m.slave m.pdu m.usLength := rfl
  unfold Mb.pollExecute
  simp only [if_pos hsource, hout]
  generalize execute sz m.slave m.pdu m.usLength = out at hreply hslave hconf
  obtain ⟨hrcv, hqueue, -⟩ :=
    Rtu.eMBRTUSend_frame { m.rtu with ucRTUBuf := m.storePdu out.frame } m.ucMBAddress m.ucMBFrame
      out.usLen
  refine ⟨h.state, h.addr, ⟨hdest, h0⟩, hslave.symm, hrcv.trans h.rcv, hqueue.trans hq, ?_,
    m.rtu.posted, ?_⟩
  · rw [rtuFrame_length]
    omega
  · have hsend := send_reply (a := a) h.frame h.rcv hconf
    rw [hreply, h.put] at hsend
    rw [h.addr, h.frame]
    exact hsend

/-- A broadcast is executed without an answer, a request to the slave starts one. -/
theorem Accepted.poll (h : Accepted a v q m) (hfit : q.Fits sz a) (hid : v.slave.IdFits) :
    Replies sz a v q 1 (m.eMBPoll sz) ∨ Listens a (v.step sz a q) (m.eMBPoll sz) := by
  rw [Mb.eMBPoll_eq, if_neg (not_not_intro h.state), if_pos h.pending.1, h.pending.2]
  by_cases h0 : q.1 = 0
  · exact Or.inr (h.toTaken.dequeue.broadcast hfit h0 (NoFrame.dequeue m))
  · exact Or.inl (h.toTaken.dequeue.answer hfit hid h0 rfl)

theorem Replies.tx {i : ℕ} (h : Replies sz a v q i m) :
    Replies sz a v q (i + 1) { m with rtu := m.rtu.xMBRTUTransmitFSM } ∨
      i = (rtuFrame a (v.reply sz q)).length ∧
        Listens a (v.step sz a q) { m with rtu := m.rtu.xMBRTUTransmitFSM } := by
  obtain ⟨posted, hsend⟩ := h.sending
  obtain ⟨hrcv, -, -, hqueue⟩ := m.rtu.xMBRTUTransmitFSM_frame
  rcases Nat.lt_or_ge i (rtuFrame a (v.reply sz q)).length with hi | hi
  · have hnext := hsend.step hi
    refine Or.inl ⟨h.state, h.addr, h.dest, h.slave, hrcv.trans h.rcv, ?_, hi, posted, hnext⟩
    have hleft : m.rtu.usSndBufferCount ≠ 0 := by
      intro h0
      have hcount := hsend.count
      rw [h0] at hcount
      exact absurd hcount (by change 0 + i ≠ _; omega)
    unfold Rtu.xMBRTUTransmitFSM
    rw [hsend.xmit]
    simp only [if_pos hleft]
    exact h.empty
  · obtain rfl : i = (rtuFrame a (v.reply sz q)).length := le_antisymm h.bound hi
    obtain ⟨-, hrx, hidle, hput, hposted⟩ := hsend.finish
    have hstep : (v.step sz a q).put = v.put ++ rtuFrame a (v.reply sz q) := by
      simp only [Server.step, if_neg h.dest.2, if_pos h.dest.1, Server.reply]
    have hsent : ∀ e, ({ m with rtu := m.rtu.xMBRTUTransmitFSM } : Mb).Pending e → e = .frameSent := by
      intro e hp
      rcases hqueue with ⟨hin, -⟩ | hev
      · exact absurd ((hin.trans h.empty).symm.trans hp.1) Bool.false_ne_true
      · exact hp.2.symm.trans hev
    refine Or.inr ⟨rfl, ⟨h.state, h.addr, h.slave, hidle, hrx, hput.trans hstep.symm⟩,
      hrcv.trans h.rcv, fun hp => ?_, fun hp => ?_⟩
    · cases hsent _ hp
    · cases hsent _ hp

/-- A transmission does not notice T3.5 nor a poll. -/
theorem Replies.t35 {i : ℕ} (h : Replies sz a v q i m) :
    Replies sz a v q i { m with rtu := m.rtu.xMBRTUTimerT35Expired } := by
  obtain ⟨posted, hsend⟩ := h.sending
  unfold Rtu.xMBRTUTimerT35Expired
  rw [h.rcv]
  exact ⟨h.state, h.addr, h.dest, h.slave, rfl, h.empty, h.bound, posted, hsend.xmit, hsend.enabled,
    hsend.buf, hsend.cur, hsend.count, hsend.put, hsend.posted⟩

theorem Replies.poll {i : ℕ} (h : Replies sz a v q i m) : m.eMBPoll sz = m := by
  rw [Mb.eMBPoll_eq, if_neg (not_not_intro h.state), if_neg (by simp [h.empty])]

/-- Where the slave is with the last of the requests, `line` being what is still to come. -/
inductive Phase (sz : RegSizes) (a : U8) (slave : Slave) : List Request → List U8 → Mb → Prop
  | starts {m : Mb} (h : Starts a (serveRequests sz a slave []) m) : Phase sz a slave [] [] m
  | listens {qs : List Request} {m : Mb} (h : Listens a (serveRequests sz a slave qs) m) :
      Phase sz a slave qs [] m
  | receives {qs : List Request} {q : Request} {got rest : List U8} {m : Mb} (hfit : q.Fits sz a)
      (hline : got ++ rest = rtuFrame q.1 q.2) (h : Receives a (serveRequests sz a slave qs) got m) :
      Phase sz a slave (qs ++ [q]) rest m
  | hasFrame {qs : List Request} {q : Request} {m : Mb} (hfit : q.Fits sz a)
      (h : HasFrame a (serveRequests sz a slave qs) q m) : Phase sz a slave (qs ++ [q]) [] m
  | accepted {qs : List Request} {q : Request} {m : Mb} (hfit : q.Fits sz a)
      (h : Accepted a (serveRequests sz a slave qs) q m) : Phase sz a slave (qs ++ [q]) [] m
  | replies {qs : List Request} {q : Request} {i : ℕ} {m : Mb}
      (h : Replies sz a (serveRequests sz a slave qs) q i m) : Phase sz a slave (qs ++ [q]) [] m

namespace Phase

variable {slave : Slave} {qs : List Request} {line : List U8}

theorem finished (h : Listens a ((serveRequests sz a slave qs).step sz a q) m) :
    Phase sz a slave (qs ++ [q]) [] m :=
  listens (by rwa [serveRequests_snoc])

theorem poll (hid : slave.IdFits) (h : Phase sz a slave qs line m) :
    Phase sz a slave qs line (m.eMBPoll sz) := by
  cases h with
  | starts h => exact starts ((Unnoticed.poll h.queue).starts h)
  | listens h => exact listens ((Unnoticed.poll h.queue).listens h)
  | receives hfit hline h => exact receives hfit hline ((Unnoticed.poll h.queue).receives h)
  | hasFrame hfit h =>
    rcases h.poll ⟨hfit.1, hfit.2.1⟩ with hacc | hdone
    · exact accepted hfit hacc
    · exact finished hdone
  | accepted hfit h =>
    rcases h.poll hfit (serveRequests_idFits hid _) with hrep | hdone
    · exact replies hrep
    · exact finished hdone
  | replies h =>
    rw [h.poll]
    exact replies h

theorem tx (h : Phase sz a slave qs line m) :
    Phase sz a slave qs line { m with rtu := m.rtu.xMBRTUTransmitFSM } := by
  cases h with
  | starts h => exact starts ((Unnoticed.tx h.snd).starts h)
  | listens h => exact listens ((Unnoticed.tx h.snd).listens h)
  | receives hfit hline h => exact receives hfit hline ((Unnoticed.tx h.snd).receives h)
  | hasFrame hfit h => exact hasFrame hfit ((Unnoticed.tx h.snd).hasFrame h)
  | accepted hfit h => exact accepted hfit ((Unnoticed.tx h.snd).accepted h)
  | replies h =>
    rcases h.tx with hnext | ⟨-, hdone⟩
    · exact replies hnext
    · exact finished hdone

theorem t35 (h : Phase sz a slave qs [] m) :
    Phase sz a slave qs [] { m with rtu := m.rtu.xMBRTUTimerT35Expired } := by
  generalize hline : ([] : List U8) = line at h
  cases h with
  | starts h => exact listens h.t35
  | listens h => exact listens ((Unnoticed.t35 h.rcv).listens h)
  | receives hfit hgot h =>
    subst hline
    rw [List.append_nil] at hgot
    subst hgot
    exact hasFrame hfit h.t35
  | hasFrame hfit h => exact hasFrame hfit ((Unnoticed.t35 h.rcv).hasFrame h)
  | accepted hfit h => exact accepted hfit ((Unnoticed.t35 h.rcv).accepted h)
  | replies h => exact replies h.t35

theorem byte {b : U8} (h : Phase sz a slave qs line m) (hhead : line.head? = some b) :
    Phase sz a slave qs line.tail { m with rtu := m.rtu.xMBRTUReceiveFSM b } := by
  cases h with
  | starts _ => cases hhead
  | listens _ => cases hhead
  | hasFrame _ _ => cases hhead
  | accepted _ _ => cases hhead
  | replies _ => cases hhead
  | receives hfit hline h =>
    obtain ⟨rest, rfl⟩ := List.head?_eq_some_iff.mp hhead
    have hlen := congrArg List.length hline
    rw [List.length_append, List.length_cons, rtuFrame_length] at hlen
    have hmax := hfit.2.1
    refine receives hfit ?_ (h.byte (by omega) b)
    rw [List.append_assoc]
    exact hline

/-- A slave that listens to a quiet line is done with all requests. -/
theorem listening (h : Phase sz a slave qs [] m) (hl : m.Listening) :
    Listens a (serveRequests sz a slave qs) m := by
  obtain ⟨hidle, hsnd, hrec, hexec⟩ := hl
  generalize hline : ([] : List U8) = line at h
  cases h with
  | starts h => cases h.rcv.symm.trans hidle
  | listens h => exact h
  | receives hq hgot h =>
    subst hline
    rcases h.rcv with ⟨rfl, -⟩ | ⟨hrcv, -⟩
    · exact absurd (congrArg List.length hgot) (by simp)
    · cases hrcv.rcv.symm.trans hidle
  | hasFrame _ h => exact absurd h.pending hrec
  | accepted _ h => exact absurd h.pending hexec
  | replies h =>
    obtain ⟨_, hs⟩ := h.sending
    cases hs.xmit.symm.trans hsnd

/-- The master sends only to a slave that listens. -/
theorem request (h : Phase sz a slave qs [] m) (hl : m.Listening) (hfit : q.Fits sz a) :
    Phase sz a slave (qs ++ [q]) (rtuFrame q.1 q.2) m :=
  receives hfit (List.nil_append _) (h.listening hl).request

theorem addr (h : Phase sz a slave qs line m) : m.ucMBAddress = a := by
  cases h with
  | starts h => exact h.addr
  | listens h => exact h.addr
  | receives _ _ h => exact h.addr
  | hasFrame _ h => exact h.addr
  | accepted _ h => exact h.addr
  | replies h => exact h.addr

theorem step {b b' : MbBus} {e : BusEvent} (hid : slave.IdFits)
    (h : Phase sz a slave b.requests b.line b.slave.mb) (hs : BusStep sz b e b') :
    Phase sz a slave b'.requests b'.line b'.slave.mb := by
  obtain ⟨hready, rfl⟩ := hs
  cases e with
  | request q =>
    obtain ⟨hline, hl, hfit⟩ := hready
    rw [h.addr] at hfit
    rw [hline] at h
    exact h.request hl hfit
  | slave e =>
    cases e with
    | byte ucByte =>
      exact (congrArg (Phase sz a slave _ _) (b.slave.received_mb ucByte).1).mpr (h.byte hready.1)
    | t35 =>
      have hline : b.line = [] := hready.1
      rw [hline] at h
      refine (congrArg (Phase sz a slave b.requests b.line) b.slave.expired_mb.1).mpr ?_
      rw [hline]
      exact h.t35
    | txComplete => exact h.tx
    | poll => exact (congrArg (Phase sz a slave _ _) (b.slave.polled_mb sz)).mpr (h.poll hid)
    | disable => exact hready.elim
    | enable => exact hready.elim

theorem start (sz : RegSizes) (ucSlaveAddress : U8) (slave : Slave) (buf : ℕ → U8) :
    Phase sz ucSlaveAddress slave [] [] (MbBus.start ucSlaveAddress slave buf).slave.mb := by
  refine starts ⟨⟨rfl, rfl, rfl, rfl, rfl, rfl⟩, rfl, rfl, fun hp => ?_, fun hp => ?_⟩
  · cases hp.1
  · cases hp.1

theorem run {b b' : MbBus} {evs : List BusEvent} (hid : slave.IdFits)
    (h : Phase sz a slave b.requests b.line b.slave.mb) (hrun : Run (BusStep sz) b evs b') :
    Phase sz a slave b'.requests b'.line b'.slave.mb := by
  have hstep : ∀ t e t', Phase sz a slave t.requests t.line t.slave.mb → BusStep sz t e t' →
      Phase sz a slave t'.requests t'.line t'.slave.mb :=
    fun _ _ _ ht hs => ht.step hid hs
  exact hrun.invariant h hstep

theorem put_prefix (h : Phase sz a slave qs line m) :
    m.rtu.put <+: (serveRequests sz a slave qs).put := by
  cases h with
  | starts h => exact h.put ▸ List.prefix_rfl
  | listens h => exact h.put ▸ List.prefix_rfl
  | receives _ _ h =>
    rw [h.put, serveRequests_snoc]
    exact Server.step_put_prefix
  | hasFrame _ h =>
    rw [h.put, serveRequests_snoc]
    exact Server.step_put_prefix
  | accepted _ h =>
    rw [h.put, serveRequests_snoc]
    exact Server.step_put_prefix
  | replies h =>
    obtain ⟨posted, hs⟩ := h.sending
    rw [hs.put, serveRequests_snoc]
    simp only [Server.step, if_neg h.dest.2, if_pos h.dest.1]
    exact (List.prefix_append_right_inj _).mpr (List.take_prefix _ _)

end Phase

end Bus

open Bus in
/-- With a master that waits for the slave to listen before each request, and whatever the
order of the interrupts and the polls, the slave puts on the line, byte by byte, what a
server would answer that takes the requests one at a time; and when the slave listens and
the line is quiet, all of it has been put and the tables are the server's. -/
theorem bus_serves (sz : RegSizes) (ucMBAddress : U8) (slave : Slave) (buf : ℕ → U8)
    {evs : List BusEvent} {b : MbBus} (hid : slave.IdFits)
    (hrun : Run (BusStep sz) (MbBus.start ucMBAddress slave buf) evs b) :
    b.slave.mb.rtu.put <+: (serveRequests sz ucMBAddress slave b.requests).put ∧
      (b.line = [] → b.slave.mb.Listening →
        b.slave.mb.rtu.put = (serveRequests sz ucMBAddress slave b.requests).put ∧
        b.slave.mb.slave = (serveRequests sz ucMBAddress slave b.requests).slave) := by
  have h := (Phase.start sz ucMBAddress slave buf).run hid hrun
  refine ⟨h.put_prefix, fun hline hl => ?_⟩
  rw [hline] at h
  have hdone := h.listening hl
  exact ⟨hdone.put, hdone.slave⟩

def sent (q : Request) : List BusEvent :=
  .request q :: (rtuFrame q.1 q.2).map (fun ucByte => .slave (.byte ucByte)) ++ [.slave .t35]

-- With a master that does not wait, the request takes the broadcast's place in the event slot.
example :
    let evs : List BusEvent := .slave .t35 :: sent (0, [6, 0, 7, 0x12, 0x34]) ++ sent (1, [0x11])
    let b := (evs ++ List.replicate 4 (BusEvent.slave .poll)).foldl (MbBus.next regSizes)
      (MbBus.start 1 Slave.start fun _ => 0)
    b.slave.mb.slave.regs.usRegHoldingBuf 7 = Slave.start.regs.usRegHoldingBuf 7 := by
  decide +kernel

def reportBus : List BusEvent :=
  [.slave .t35, .request (1, [0x11]), .slave (.byte 0x01), .slave (.byte 0x11), .slave (.byte 0xC0),
    .slave (.byte 0x2C), .slave .t35, .slave .poll, .slave .poll, .slave .txComplete,
    .slave .txComplete, .slave .txComplete, .slave .txComplete]

theorem bus_serves_report : ∃ b,
    Run (BusStep regSizes) (MbBus.start 1 Slave.start fun _ => 0) reportBus b ∧
      b.slave.mb.rtu.put = [1, 0x11, 0xC0, 0x2C] ∧
      b.slave.mb.rtu.put = (serveRequests regSizes 1 Slave.start [(1, [0x11])]).put := by
  have hadm : Admitted (MbBus.next regSizes) (MbBus.Ready regSizes)
      (MbBus.start 1 Slave.start fun _ => 0) reportBus := by decide +kernel
  have hrun : Run (BusStep regSizes) _ reportBus _ := Run.of_admitted (fun s e h => ⟨h, rfl⟩) hadm
  have hid : Slave.start.IdFits := by decide
  have hend : (reportBus.foldl (MbBus.next regSizes) (MbBus.start 1 Slave.start fun _ => 0)).line = [] ∧
      (reportBus.foldl (MbBus.next regSizes)
        (MbBus.start 1 Slave.start fun _ => 0)).slave.mb.Listening := by decide +kernel
  have hserved := (bus_serves regSizes 1 Slave.start _ hid hrun).2 hend.1 hend.2
  exact ⟨_, hrun, by decide +kernel, hserved.1⟩

end Stm32F407
