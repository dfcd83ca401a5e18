import Stm32F407.Proofs.RtuExecution

/-! The state of the port between `eMBEnable` and `eMBDisable`: which interrupts are
enabled in which states of receiver and transmitter, and what the one-slot event
queue can hold there. Every operation keeps both; so the receiver and the
transmitter never work at once, and an accepted request stays in the queue until it
is fetched, unless T3.5 completes another frame before. -/

namespace Stm32F407

open Lib

/-- Receive or transmit, never both; the timer runs only while something is received. -/
structure HalfDuplex (r : Rtu) : Prop where
  notBoth : ¬(r.xRxEnable = true ∧ r.xTxEnable = true)
  xmit : r.eSndState = .xmit →
    r.xRxEnable = false ∧ r.xTxEnable = true ∧ r.timersEnabled = false ∧ r.eRcvState = .idle
  idle : r.eRcvState = .idle → r.timersEnabled = false
  pos : r.usRcvBufferPos.toNat ≤ 256

structure PortInv (r : Rtu) : Prop extends HalfDuplex r where
  tx : r.xTxEnable = true → r.eSndState = .xmit

/-- No frame waits in the queue before the first T3.5, and nothing during a transmission. -/
structure QueueInv (r : Rtu) : Prop where
  init : r.eRcvState = .init → r.xEventInQueue = true →
    r.eQueuedEvent ≠ .frameReceived ∧ r.eQueuedEvent ≠ .execute
  xmit : r.eSndState = .xmit → r.xEventInQueue = false

namespace PortInv

variable {r : Rtu}

theorem snd_idle (h : PortInv r) (hrx : r.xRxEnable = true) : r.eSndState = .idle := by
  cases hsnd : r.eSndState with
  | idle => rfl
  | xmit =>
    have hoff := (h.xmit hsnd).1
    rw [hrx] at hoff
    exact absurd hoff nofun

theorem snd_ne_xmit (h : PortInv r) (ht : r.timersEnabled = true) : r.eSndState ≠ .xmit := by
  intro hx
  have hoff := (h.xmit hx).2.2.1
  rw [ht] at hoff
  exact absurd hoff nofun

theorem rcv_idle (h : PortInv r) (htx : r.xTxEnable = true) : r.eRcvState = .idle :=
  (h.xmit (h.tx htx)).2.2.2

/-- The timer is on only in a state in which T3.5 has something to say. -/
theorem rcv_busy (h : PortInv r) (ht : r.timersEnabled = true) : r.eRcvState ≠ .idle := by
  intro hidle
  have hoff := h.idle hidle
  rw [ht] at hoff
  exact absurd hoff nofun

end PortInv

namespace Rtu

/-- A byte restarts the timer and leaves the receiver outside the idle state. -/
theorem receiveFSM_port (r : Rtu) (b : U8) :
    (r.xMBRTUReceiveFSM b).eSndState = r.eSndState ∧
    (r.xMBRTUReceiveFSM b).xRxEnable = r.xRxEnable ∧
    (r.xMBRTUReceiveFSM b).xTxEnable = r.xTxEnable ∧
    (r.xMBRTUReceiveFSM b).eRcvState ≠ .idle ∧
    ((r.xMBRTUReceiveFSM b).eRcvState = .init → r.eRcvState = .init) ∧
    (r.usRcvBufferPos.toNat ≤ 256 → (r.xMBRTUReceiveFSM b).usRcvBufferPos.toNat ≤ 256) := by
  unfold xMBRTUReceiveFSM
  cases hst : r.eRcvState with
  | init => exact ⟨rfl, rfl, rfl, by simp [vMBPortTimersEnable, hst], fun _ => rfl, fun h => h⟩
  | error =>
    refine ⟨rfl, rfl, rfl, by simp [vMBPortTimersEnable, hst], fun h => ?_, fun h => h⟩
    cases hst.symm.trans h
  | idle =>
    refine ⟨rfl, rfl, rfl, by simp [vMBPortTimersEnable], fun h => ?_, fun _ => ?_⟩
    · cases h
    · show (1 : U16).toNat ≤ 256
      decide
  | rcv =>
    simp only
    split_ifs with hpos
    · refine ⟨rfl, rfl, rfl, by simp [vMBPortTimersEnable], fun h => ?_, fun h => ?_⟩
      · cases h
      · have hlt := BitVec.lt_def.mp hpos
        have h1 : (1 : U16).toNat = 1 := rfl
        have h256 : (256 : U16).toNat = 256 := rfl
        simp only [vMBPortTimersEnable, BitVec.toNat_add, h1]
        omega
    · refine ⟨rfl, rfl, rfl, by simp [vMBPortTimersEnable], fun h => ?_, fun h => h⟩
      cases h

structure SendsFrom (r r' : Rtu) : Prop where
  rcv : r'.eRcvState = r.eRcvState
  timers : r'.timersEnabled = r.timersEnabled
  pos : r'.usRcvBufferPos = r.usRcvBufferPos
  queue : r'.xEventInQueue = r.xEventInQueue
  port : (r'.eSndState = r.eSndState ∧ r'.xRxEnable = r.xRxEnable ∧ r'.xTxEnable = r.xTxEnable) ∨
    (r.eRcvState = .idle ∧ r'.eSndState = .xmit ∧ r'.xRxEnable = false ∧ r'.xTxEnable = true)

theorem eMBRTUSend_port (r : Rtu) (a : U8) (p : ℕ) (len : U16) :
    r.SendsFrom (r.eMBRTUSend a p len).2 := by
  unfold eMBRTUSend
  split_ifs with hidle
  · exact ⟨rfl, rfl, rfl, rfl, Or.inr ⟨hidle, rfl, rfl, rfl⟩⟩
  · exact ⟨rfl, rfl, rfl, rfl, Or.inl ⟨rfl, rfl, rfl⟩⟩

end Rtu

theorem Mb.pollExecute_port (sz : RegSizes) (m : Mb) :
    (m.pollExecute sz).eMBState = m.eMBState ∧ m.rtu.SendsFrom (m.pollExecute sz).rtu := by
  unfold Mb.pollExecute
  simp only
  split_ifs
  · obtain ⟨h1, h2, h3, h4, h5⟩ := Rtu.eMBRTUSend_port
      { m.rtu with ucRTUBuf := m.storePdu _ } m.ucMBAddress m.ucMBFrame _
    exact ⟨rfl, h1, h2, h3, h4, h5⟩
  · exact ⟨rfl, rfl, rfl, rfl, rfl, Or.inl ⟨rfl, rfl, rfl⟩⟩

theorem Mb.pollFrameReceived_port (m : Mb) :
    m.pollFrameReceived.eMBState = m.eMBState ∧
    (m.pollFrameReceived.rtu = m.rtu ∨ m.pollFrameReceived.rtu = m.rtu.xMBPortEventPost .execute) := by
  unfold Mb.pollFrameReceived
  split
  · simp only
    split_ifs
    · exact ⟨rfl, Or.inr rfl⟩
    · exact ⟨rfl, Or.inl rfl⟩
  · exact ⟨rfl, Or.inl rfl⟩

namespace MbSystem

theorem received_mb (s : MbSystem) (b : U8) :
    (s.received b).mb = { s.mb with rtu := s.mb.rtu.xMBRTUReceiveFSM b } ∧
      (s.received b).calls = s.calls := by
  unfold received
  split <;> exact ⟨rfl, rfl⟩

theorem expired_mb (s : MbSystem) :
    s.expired.mb = { s.mb with rtu := s.mb.rtu.xMBRTUTimerT35Expired } ∧
      s.expired.calls = s.calls := by
  unfold expired
  simp only
  split_ifs <;> exact ⟨rfl, rfl⟩

theorem polled_mb (sz : RegSizes) (s : MbSystem) : (s.polled sz).mb = s.mb.eMBPoll sz := by
  unfold polled
  simp only
  split_ifs <;> rfl

theorem enabled_mb (s : MbSystem) : s.enabled.mb = s.mb.eMBEnable ∧ s.enabled.calls = s.calls := by
  unfold enabled
  simp only
  split_ifs <;> exact ⟨rfl, rfl⟩

end MbSystem

namespace PortInv

variable {r r' : Rtu}

theorem congr (h : PortInv r) (hsnd : r'.eSndState = r.eSndState) (hrcv : r'.eRcvState = r.eRcvState)
    (hrx : r'.xRxEnable = r.xRxEnable) (htx : r'.xTxEnable = r.xTxEnable)
    (ht : r'.timersEnabled = r.timersEnabled) (hpos : r'.usRcvBufferPos = r.usRcvBufferPos) :
    PortInv r' := by
  refine ⟨⟨?_, ?_, ?_, ?_⟩, ?_⟩
  · rw [hrx, htx]
    exact h.notBoth
  · rw [hsnd, hrx, htx, ht, hrcv]
    exact h.xmit
  · rw [hrcv, ht]
    exact h.idle
  · rw [hpos]
    exact h.pos
  · rw [htx, hsnd]
    exact h.tx

/-- A byte comes only when nothing is sent. -/
theorem byte (h : PortInv r) (hrx : r.xRxEnable = true) (b : U8) :
    PortInv (r.xMBRTUReceiveFSM b) := by
  obtain ⟨hsnd, hrx', htx', hbusy, -, hpos⟩ := r.receiveFSM_port b
  have hidle := h.snd_idle hrx
  refine ⟨⟨?_, fun hx => ?_, fun hi => absurd hi hbusy, hpos h.pos⟩, fun htx => ?_⟩
  · rw [hrx', htx']
    exact h.notBoth
  · rw [hsnd, hidle] at hx
    exact absurd hx nofun
  · rw [htx'] at htx
    exact absurd ⟨hrx, htx⟩ h.notBoth

theorem t35 (h : PortInv r) (ht : r.timersEnabled = true) : PortInv r.xMBRTUTimerT35Expired := by
  have hidle := h.snd_ne_xmit ht
  unfold Rtu.xMBRTUTimerT35Expired
  cases hst : r.eRcvState with
  | init => exact ⟨⟨h.notBoth, fun hx => absurd hx hidle, fun _ => rfl, h.pos⟩, h.tx⟩
  | rcv => exact ⟨⟨h.notBoth, fun hx => absurd hx hidle, fun _ => rfl, h.pos⟩, h.tx⟩
  | error => exact ⟨⟨h.notBoth, fun hx => absurd hx hidle, fun _ => rfl, h.pos⟩, h.tx⟩
  | idle => exact absurd hst (h.rcv_busy ht)

theorem txComplete (h : PortInv r) (htx : r.xTxEnable = true) : PortInv r.xMBRTUTransmitFSM := by
  have hx := h.tx htx
  have hidle := h.rcv_idle htx
  unfold Rtu.xMBRTUTransmitFSM
  simp only [hx]
  split_ifs
  · exact h.congr rfl rfl rfl rfl rfl rfl
  · exact ⟨⟨nofun, nofun, fun _ => h.idle hidle, h.pos⟩, nofun⟩

/-- A transmission starts only when the receiver is idle, so the timer is off. -/
theorem send (h : PortInv r) (hs : r.SendsFrom r') : PortInv r' := by
  rcases hs.port with ⟨hsnd, hrx, htx⟩ | ⟨hidle, hsnd, hrx, htx⟩
  · exact h.congr hsnd hs.rcv hrx htx hs.timers hs.pos
  · refine ⟨⟨?_, fun _ => ⟨hrx, htx, ?_, hs.rcv.trans hidle⟩, fun _ => ?_, ?_⟩, fun _ => hsnd⟩
    · rw [hrx]
      nofun
    · rw [hs.timers, h.idle hidle]
    · rw [hs.timers, h.idle hidle]
    · rw [hs.pos]
      exact h.pos

end PortInv

namespace QueueInv

variable {r r' : Rtu}

theorem empty (hq : r.xEventInQueue = false) : QueueInv r :=
  ⟨fun _ h => absurd (hq.symm.trans h) nofun, fun _ => hq⟩

theorem congr (h : QueueInv r) (hsnd : r'.eSndState = r.eSndState)
    (hrcv : r'.eRcvState = .init → r.eRcvState = .init) (hq : r'.xEventInQueue = r.xEventInQueue)
    (hev : r'.eQueuedEvent = r.eQueuedEvent) : QueueInv r' := by
  refine ⟨fun hi hin => ?_, fun hx => ?_⟩
  · rw [hev]
    exact h.init (hrcv hi) (hq ▸ hin)
  · rw [hq]
    exact h.xmit (hsnd ▸ hx)

/-- T3.5 comes only when nothing is sent, and it leaves the receiver idle. -/
theorem t35 (hp : PortInv r) (ht : r.timersEnabled = true) : QueueInv r.xMBRTUTimerT35Expired := by
  have hidle := hp.snd_ne_xmit ht
  refine ⟨nofun, fun hx => absurd ?_ hidle⟩
  rw [← hx]
  unfold Rtu.xMBRTUTimerT35Expired
  split <;> rfl

theorem txComplete (h : QueueInv r) (hp : PortInv r) (htx : r.xTxEnable = true) :
    QueueInv r.xMBRTUTransmitFSM := by
  have hidle := hp.rcv_idle htx
  have hinit : r.xMBRTUTransmitFSM.eRcvState ≠ .init := by
    rw [(Rtu.xMBRTUTransmitFSM_frame r).1, hidle]
    nofun
  refine ⟨fun hi => absurd hi hinit, fun hx => ?_⟩
  revert hx
  unfold Rtu.xMBRTUTransmitFSM
  simp only [hp.tx htx]
  split_ifs
  · exact fun _ => h.xmit (hp.tx htx)
  · nofun

end QueueInv

structure Quiet (m : Mb) : Prop where
  state : m.eMBState = .disabled
  snd : m.rtu.eSndState = .idle
  rx : m.rtu.xRxEnable = false
  tx : m.rtu.xTxEnable = false
  rcv : m.rtu.eRcvState ≠ .rcv
  pos : m.rtu.usRcvBufferPos.toNat ≤ 256
  queue : m.rtu.xEventInQueue = true →
    m.rtu.eQueuedEvent ≠ .frameReceived ∧ m.rtu.eQueuedEvent ≠ .execute

structure Active (m : Mb) : Prop where
  state : m.eMBState = .enabled
  port : PortInv m.rtu
  queue : QueueInv m.rtu

variable {sz : RegSizes} {s s' : MbSystem} {e : MbEvent}

theorem Quiet.enable (h : Quiet s.mb) : Active s.enabled.mb := by
  rw [s.enabled_mb.1, Mb.eMBEnable, if_pos h.state]
  refine ⟨rfl, ⟨⟨nofun, fun hx => ?_, nofun, h.pos⟩, nofun⟩, ⟨fun _ => h.queue, fun hx => ?_⟩⟩
  · exact absurd (h.snd.symm.trans hx) nofun
  · exact absurd (h.snd.symm.trans hx) nofun

theorem Quiet.step (h : Quiet s.mb) (hs : MbStep sz s e s') (he : e ≠ .enable) : Quiet s'.mb := by
  obtain ⟨hready, rfl⟩ := hs
  cases e with
  | enable => exact absurd rfl he
  | byte b => exact absurd (h.rx.symm.trans hready) nofun
  | txComplete => exact absurd (h.tx.symm.trans hready) nofun
  | poll =>
    have hsame : (s.polled sz).mb = s.mb := by
      rw [s.polled_mb, Mb.eMBPoll_eq, if_pos (by rw [h.state]; nofun)]
    exact (congrArg Quiet hsame).mpr h
  | disable =>
    have hsame : s.disabled.mb = s.mb := if_neg (by rw [h.state]; nofun)
    exact (congrArg Quiet hsame).mpr h
  | t35 =>
    have hrcv := h.rcv
    refine (congrArg Quiet s.expired_mb.1).mpr ?_
    unfold Rtu.xMBRTUTimerT35Expired
    cases hst : s.mb.rtu.eRcvState with
    | rcv => exact absurd hst hrcv
    | init => exact ⟨h.state, h.snd, h.rx, h.tx, nofun, h.pos, fun _ => ⟨nofun, nofun⟩⟩
    | error => exact ⟨h.state, h.snd, h.rx, h.tx, nofun, h.pos, h.queue⟩
    | idle => exact ⟨h.state, h.snd, h.rx, h.tx, nofun, h.pos, h.queue⟩

theorem quiet_start (a : U8) (slave : Slave) (buf : ℕ → U8) :
    Quiet (MbSystem.start a slave buf).mb :=
  ⟨rfl, rfl, rfl, rfl, nofun, Nat.zero_le _, nofun⟩

theorem Quiet.run {evs : List MbEvent} (h : Quiet s.mb) (hrun : Run (MbStep sz) s evs s')
    (hno : .enable ∉ evs) : Quiet s'.mb := by
  have hother : ∀ e ∈ evs, e ≠ .enable := fun e he heq => hno (heq ▸ he)
  have hstep : ∀ t e t', Quiet t.mb →
      Guarded (MbStep sz) (fun _ e => e ≠ .enable) t e t' → Quiet t'.mb :=
    fun _ _ _ ht hs => ht.step hs.2 hs.1
  exact (hrun.guard hother).invariant h hstep

/-- Fetching an event and handling it. -/
theorem Active.poll {m : Mb} (h : Active m) : Active (m.eMBPoll sz) := by
  rw [Mb.eMBPoll_eq, if_neg (not_not_intro h.state)]
  split_ifs with hq
  · have hport : PortInv m.dequeue.rtu := h.port.congr rfl rfl rfl rfl rfl rfl
    have hempty : QueueInv m.dequeue.rtu := QueueInv.empty rfl
    have hdeq : Active m.dequeue := ⟨h.state, hport, hempty⟩
    have hidle : m.rtu.eSndState ≠ .xmit := by
      intro hx
      have hno := h.queue.xmit hx
      rw [hq] at hno
      exact absurd hno nofun
    unfold Mb.handle
    cases hev : m.rtu.eQueuedEvent with
    | ready => exact hdeq
    | frameSent => exact hdeq
    | frameReceived =>
      obtain ⟨hst, hsame | hpost⟩ := m.dequeue.pollFrameReceived_port
      · exact ⟨hst.trans h.state, hsame ▸ hport, hsame ▸ hempty⟩
      · refine ⟨hst.trans h.state, ?_, ?_⟩
        · rw [hpost]
          exact hport.congr rfl rfl rfl rfl rfl rfl
        · rw [hpost]
          exact ⟨fun hi _ => absurd hev (h.queue.init hi hq).1, fun hx => absurd hx hidle⟩
    | execute =>
      obtain ⟨hst, hsend⟩ := m.dequeue.pollExecute_port sz
      exact ⟨hst.trans h.state, hport.send hsend, QueueInv.empty hsend.queue⟩
  · exact h

/-- A second `eMBEnable` is refused. -/
theorem Active.enabled_mb (h : Active s.mb) : s.enabled.mb = s.mb := by
  rw [s.enabled_mb.1, Mb.eMBEnable, if_neg (by rw [h.state]; nofun)]

theorem Active.step (h : Active s.mb) (hs : MbStep sz s e s') (he : e ≠ .disable) :
    Active s'.mb := by
  obtain ⟨hready, rfl⟩ := hs
  cases e with
  | disable => exact absurd rfl he
  | enable =>
    exact (congrArg Active h.enabled_mb).mpr h
  | byte b =>
    obtain ⟨hsnd, -, -, -, hinit, -⟩ := s.mb.rtu.receiveFSM_port b
    obtain ⟨hq, hev⟩ := s.mb.rtu.receiveFSM_queue b
    exact (congrArg Active (s.received_mb b).1).mpr
      ⟨h.state, h.port.byte hready b, h.queue.congr hsnd hinit hq hev⟩
  | t35 =>
    exact (congrArg Active s.expired_mb.1).mpr
      ⟨h.state, h.port.t35 hready, QueueInv.t35 h.port hready⟩
  | txComplete => exact ⟨h.state, h.port.txComplete hready, h.queue.txComplete h.port hready⟩
  | poll => exact (congrArg Active (s.polled_mb sz)).mpr h.poll

theorem Active.run {evs : List MbEvent} (h : Active s.mb) (hrun : Run (MbStep sz) s evs s')
    (hno : .disable ∉ evs) : Active s'.mb := by
  have hother : ∀ e ∈ evs, e ≠ .disable := fun e he heq => hno (heq ▸ he)
  have hstep : ∀ t e t', Active t.mb →
      Guarded (MbStep sz) (fun _ e => e ≠ .disable) t e t' → Active t'.mb :=
    fun _ _ _ ht hs => ht.step hs.2 hs.1
  exact (hrun.guard hother).invariant h hstep

/-- Between the first `eMBEnable` and the next `eMBDisable` the port is half-duplex in
every reachable state, so the receive interrupt finds the transmitter idle and the
transmit interrupt the receiver. -/
theorem half_duplex (sz : RegSizes) (ucMBAddress : U8) (slave : Slave) (buf : ℕ → U8)
    (pre post : List MbEvent) (s : MbSystem)
    (hrun : Run (MbStep sz) (MbSystem.start ucMBAddress slave buf) (pre ++ .enable :: post) s)
    (hpre : .enable ∉ pre) (hpost : .disable ∉ post) :
    HalfDuplex s.mb.rtu ∧
      (s.mb.rtu.xRxEnable = true → s.mb.rtu.eSndState = .idle) ∧
      (s.mb.rtu.xTxEnable = true → s.mb.rtu.eRcvState = .idle) := by
  obtain ⟨s₁, hrun₁, hrun⟩ := run_append_iff.mp hrun
  rw [← List.singleton_append] at hrun
  obtain ⟨s₂, hen, hrun₂⟩ := run_append_iff.mp hrun
  obtain rfl : s₂ = s₁.enabled := (run_single_iff.mp hen).2
  have hquiet := (quiet_start ucMBAddress slave buf).run hrun₁ hpre
  have hactive := hquiet.enable.run hrun₂ hpost
  exact ⟨hactive.port.toHalfDuplex, hactive.port.snd_idle, hactive.port.rcv_idle⟩

/-- While the reply of slave 1 is sent. -/
theorem half_duplex_report : ∃ s,
    Run (MbStep regSizes) (MbSystem.start 1 Slave.start fun _ => 0) reportEvents s ∧
      s.mb.rtu.eSndState = .xmit ∧ HalfDuplex s.mb.rtu := by
  have hadm : Admitted (MbSystem.next regSizes) MbSystem.Ready
      (MbSystem.start 1 Slave.start fun _ => 0) reportEvents := by decide +kernel
  have hrun : Run (MbStep regSizes) _ reportEvents _ := Run.of_admitted (fun s e h => ⟨h, rfl⟩) hadm
  refine ⟨_, hrun, by decide +kernel, ?_⟩
  exact (half_duplex regSizes 1 Slave.start _ [] _ _ hrun (by decide) (by decide)).1

/-- The next `eMBPoll` receives a frame for this slave and posts `EV_EXECUTE`. -/
def Mb.Accepts (m : Mb) : Prop :=
  m.eMBState = .enabled ∧ m.Pending .frameReceived ∧
    ∃ x, m.rtu.eMBRTUReceive = .ok x ∧ (x.1 = m.ucMBAddress ∨ x.1 = 0)

/-- The step neither fetches an event nor completes a further frame. -/
def Keeps (s : MbSystem) (e : MbEvent) : Prop :=
  e ≠ .poll ∧ e ≠ .disable ∧ (e = .t35 → s.mb.rtu.eRcvState ≠ .rcv)

instance (s : MbSystem) (e : MbEvent) : Decidable (Keeps s e) := inferInstanceAs (Decidable (_ ∧ _))

/-- The step is not a byte after the first of a further frame. -/
def Intact (s : MbSystem) (e : MbEvent) : Prop := ∀ b, e = .byte b → s.mb.rtu.eRcvState ≠ .rcv

structure Waiting (calls : List HandlerCall) (s : MbSystem) : Prop where
  active : Active s.mb
  pending : s.mb.Pending .execute
  calls : s.calls = calls

theorem Mb.Accepts.poll (sz : RegSizes) {m : Mb} (h : m.Accepts) :
    (m.eMBPoll sz).Pending .execute ∧ (m.eMBPoll sz).ucMBFrame = 1 ∧
      (m.eMBPoll sz).usLength = m.rtu.usRcvBufferPos - 1 - 2 ∧
      (m.eMBPoll sz).rtu.ucRTUBuf = m.rtu.ucRTUBuf := by
  obtain ⟨hst, ⟨hq, hev⟩, x, hx, haddr⟩ := h
  have hx' : m.dequeue.rtu.eMBRTUReceive = .ok x := hx
  have hform : x.2 = (1, m.rtu.usRcvBufferPos - 1 - 2) := by
    unfold Rtu.eMBRTUReceive at hx
    split_ifs at hx
    obtain rfl := Except.ok.inj hx
    rfl
  rw [Mb.eMBPoll_eq, if_neg (not_not_intro hst), if_pos hq, hev]
  obtain ⟨a, p, len⟩ := x
  simp only [Prod.mk.injEq] at hform
  obtain ⟨rfl, rfl⟩ := hform
  unfold Mb.handle Mb.pollFrameReceived
  simp only [hx']
  have haddr' : a = m.dequeue.ucMBAddress ∨ a = 0 := haddr
  rw [if_pos haddr']
  exact ⟨⟨rfl, rfl⟩, rfl, rfl, rfl⟩

/-- Nothing but the end of another reception writes the slot while a request waits. -/
theorem Waiting.step {calls : List HandlerCall} (h : Waiting calls s)
    (hs : Guarded (MbStep sz) Keeps s e s') : Waiting calls s' := by
  obtain ⟨⟨hpoll, hdis, ht35⟩, hstep⟩ := hs
  have hactive := h.active.step hstep hdis
  obtain ⟨hready, rfl⟩ := hstep
  have hinit : s.mb.rtu.eRcvState ≠ .init := fun hi =>
    (h.active.queue.init hi h.pending.1).2 h.pending.2
  cases e with
  | poll => exact absurd rfl hpoll
  | disable => exact absurd rfl hdis
  | enable =>
    exact ⟨hactive, (congrArg (Mb.Pending · .execute) h.active.enabled_mb).mpr h.pending,
      s.enabled_mb.2.trans h.calls⟩
  | byte b =>
    obtain ⟨hq, hev⟩ := s.mb.rtu.receiveFSM_queue b
    refine ⟨hactive, (congrArg (Mb.Pending · .execute) (s.received_mb b).1).mpr ?_,
      (s.received_mb b).2.trans h.calls⟩
    exact ⟨hq.trans h.pending.1, hev.trans h.pending.2⟩
  | t35 =>
    refine ⟨hactive, (congrArg (Mb.Pending · .execute) s.expired_mb.1).mpr ?_,
      s.expired_mb.2.trans h.calls⟩
    have hrcv := ht35 rfl
    unfold Rtu.xMBRTUTimerT35Expired
    cases hst : s.mb.rtu.eRcvState with
    | init => exact absurd hst hinit
    | rcv => exact absurd hst hrcv
    | error => exact h.pending
    | idle => exact h.pending
  | txComplete =>
    have hempty := h.active.queue.xmit (h.active.port.tx hready)
    exact absurd (hempty.symm.trans h.pending.1) nofun

/-- The handed-over PDU lies behind the first cell of the buffer, so it survives the
first byte of a further frame. -/
structure SamePdu (m₀ m : Mb) : Prop where
  frame : m.ucMBFrame = 1
  length : m.usLength = m₀.usLength
  cells : ∀ i, m.rtu.ucRTUBuf (1 + i) = m₀.rtu.ucRTUBuf (1 + i)

theorem SamePdu.step {calls : List HandlerCall} {m₀ : Mb} (hw : Waiting calls s)
    (h : SamePdu m₀ s.mb) (hs : Guarded (MbStep sz) Keeps s e s') (hi : Intact s e) :
    SamePdu m₀ s'.mb := by
  obtain ⟨⟨hpoll, hdis, -⟩, hready, rfl⟩ := hs
  cases e with
  | poll => exact absurd rfl hpoll
  | disable => exact absurd rfl hdis
  | enable => exact (congrArg (SamePdu m₀) hw.active.enabled_mb).mpr h
  | byte b =>
    have hrcv := hi b rfl
    refine (congrArg (SamePdu m₀) (s.received_mb b).1).mpr ⟨h.frame, h.length, fun i => ?_⟩
    refine Eq.trans ?_ (h.cells i)
    unfold Rtu.xMBRTUReceiveFSM
    cases hst : s.mb.rtu.eRcvState with
    | rcv => exact absurd hst hrcv
    | init => rfl
    | error => rfl
    | idle => exact Function.update_of_ne (by omega) _ _
  | t35 =>
    refine (congrArg (SamePdu m₀) s.expired_mb.1).mpr ⟨h.frame, h.length, fun i => ?_⟩
    refine Eq.trans ?_ (h.cells i)
    unfold Rtu.xMBRTUTimerT35Expired
    split <;> rfl
  | txComplete =>
    have hempty := hw.active.queue.xmit (hw.active.port.tx hready)
    exact absurd (hempty.symm.trans hw.pending.1) nofun

theorem Waiting.run {calls : List HandlerCall} {evs : List MbEvent} (h : Waiting calls s)
    (hrun : Run (Guarded (MbStep sz) Keeps) s evs s') : Waiting calls s' :=
  hrun.invariant h fun _ _ _ ht hs => ht.step hs

theorem SamePdu.run {calls : List HandlerCall} {m₀ : Mb} {evs : List MbEvent}
    (hw : Waiting calls s) (h : SamePdu m₀ s.mb)
    (hrun : Run (Guarded (MbStep sz) fun t e => Keeps t e ∧ Intact t e) s evs s') :
    SamePdu m₀ s'.mb := by
  have hstep : ∀ t e t', Waiting calls t ∧ SamePdu m₀ t.mb →
      Guarded (MbStep sz) (fun t e => Keeps t e ∧ Intact t e) t e t' →
      Waiting calls t' ∧ SamePdu m₀ t'.mb :=
    fun _ _ _ ht hs => ⟨ht.1.step ⟨hs.1.1, hs.2⟩, ht.2.step ht.1 ⟨hs.1.1, hs.2⟩ hs.1.2⟩
  exact (hrun.invariant ⟨hw, h⟩ hstep).2

theorem quiet_or_active {a : U8} {slave : Slave} {buf : ℕ → U8} {evs : List MbEvent}
    (hrun : Run (MbStep sz) (MbSystem.start a slave buf) evs s) (hno : .disable ∉ evs) :
    Quiet s.mb ∨ Active s.mb := by
  have hother : ∀ e ∈ evs, e ≠ .disable := fun e he heq => hno (heq ▸ he)
  have hstep : ∀ t e t', Quiet t.mb ∨ Active t.mb →
      Guarded (MbStep sz) (fun _ e => e ≠ .disable) t e t' → Quiet t'.mb ∨ Active t'.mb := by
    rintro t e t' (ht | ht) ⟨hdis, hs⟩
    · by_cases hen : e = .enable
      · subst hen
        obtain ⟨-, rfl⟩ := hs
        exact Or.inr ht.enable
      · exact Or.inl (ht.step hs hen)
    · exact Or.inr (ht.step hs hdis)
  exact (hrun.guard hother).invariant (Or.inl (quiet_start a slave buf)) hstep

/-- An accepted request stays in the queue until the next poll, as long as T3.5 completes
no further frame before it. That poll takes it and calls, once, the handler of the function
code that the buffer then holds, if the table has one; and as long as no second byte of a
further frame comes in, the buffer then holds the PDU of the accepted frame. -/
theorem accepted_request_executed (sz : RegSizes) (ucMBAddress : U8) (slave : Slave) (buf : ℕ → U8)
    (evs mid : List MbEvent) (s s₂ : MbSystem)
    (hrun : Run (MbStep sz) (MbSystem.start ucMBAddress slave buf) evs s) (hno : .disable ∉ evs)
    (hacc : s.mb.Accepts) (hmid : Run (Guarded (MbStep sz) Keeps) (s.polled sz) mid s₂) :
    s₂.mb.Executes ∧ s₂.calls = s.calls ∧ (s₂.polled sz).mb.rtu.xEventInQueue = false ∧
    (s₂.polled sz).calls =
      (if ∃ h ∈ xFuncHandlers sz s₂.mb.slave, h.1 = s₂.mb.pdu 0 then
        s.calls ++ [⟨slice s₂.mb.pdu 0 s₂.mb.usLength.toNat, s₂.frames⟩] else s.calls) ∧
    (Run (Guarded (MbStep sz) fun t e => Keeps t e ∧ Intact t e) (s.polled sz) mid s₂ →
      (∀ i, s₂.mb.pdu i = s.mb.rtu.ucRTUBuf (1 + i)) ∧
        s₂.mb.usLength = s.mb.rtu.usRcvBufferPos - 1 - 2) := by
  have hactive : Active s.mb := by
    refine (quiet_or_active hrun hno).resolve_left fun hq => ?_
    exact absurd (hq.state.symm.trans hacc.1) nofun
  obtain ⟨hpend, hframe, hlen, hbuf⟩ := hacc.poll sz
  have hpoll := s.polled_mb sz
  have hcalls : (s.polled sz).calls = s.calls := by
    have hnot : ¬ s.mb.Executes := fun hex => absurd (hacc.2.1.2.symm.trans hex.2.2) nofun
    unfold MbSystem.polled
    simp only [if_neg fun h => hnot (And.left h)]
  have hwait : Waiting s.calls (s.polled sz) := by
    rw [← hpoll] at hpend
    exact ⟨(congrArg Active hpoll).mpr hactive.poll, hpend, hcalls⟩
  have hwait₂ := hwait.run hmid
  have hex : s₂.mb.Executes := ⟨hwait₂.active.state, hwait₂.pending⟩
  refine ⟨hex, hwait₂.calls, ?_, ?_, fun hintact => ?_⟩
  · rw [s₂.polled_mb, Mb.eMBPoll_eq, if_neg (not_not_intro hex.1), if_pos hex.2.1, hex.2.2]
    exact (s₂.mb.dequeue.pollExecute_port sz).2.queue
  · unfold MbSystem.polled
    simp only [hex, true_and, ← hwait₂.calls]
    split_ifs <;> rfl
  · have hsame : SamePdu (s.mb.eMBPoll sz) (s.polled sz).mb := by
      rw [hpoll]
      exact ⟨hframe, rfl, fun _ => rfl⟩
    have hpdu := SamePdu.run hwait hsame hintact
    refine ⟨fun i => ?_, hpdu.length.trans hlen⟩
    rw [Mb.pdu, hpdu.frame, hpdu.cells, hbuf]

def acceptEvents : List MbEvent :=
  [.enable, .t35, .byte 0x01, .byte 0x11, .byte 0xC0, .byte 0x2C, .t35]

theorem accepts_report :
    (acceptEvents.foldl (MbSystem.next regSizes)
      (MbSystem.start 1 Slave.start fun _ => 0)).mb.Accepts := by
  have hx : ∀ r : Rtu, r.usRcvBufferPos = 4 → usMBCRC16 r.ucRTUBuf 0 4 = 0 → r.ucRTUBuf 0 = 1 →
      r.eMBRTUReceive = .ok (1, 1, 1) := by
    intro r hpos hcrc h0
    rw [Rtu.eMBRTUReceive, hpos, if_pos ⟨by decide, hcrc⟩, h0]
    rfl
  refine ⟨by decide +kernel, by decide +kernel, (1, 1, 1), ?_, Or.inl (by decide +kernel)⟩
  exact hx _ (by decide +kernel) (by decide +kernel) (by decide +kernel)

theorem acceptRun : Run (MbStep regSizes) (MbSystem.start 1 Slave.start fun _ => 0) acceptEvents
    (acceptEvents.foldl (MbSystem.next regSizes) (MbSystem.start 1 Slave.start fun _ => 0)) := by
  have hadm : Admitted (MbSystem.next regSizes) MbSystem.Ready
      (MbSystem.start 1 Slave.start fun _ => 0) acceptEvents := by decide +kernel
  exact Run.of_admitted (fun s e h => ⟨h, rfl⟩) hadm

/-- The request is executed although the first byte of a further frame has come in. -/
theorem accepted_request_executed_report : ∃ s s₂,
    Run (MbStep regSizes) (MbSystem.start 1 Slave.start fun _ => 0) acceptEvents s ∧
      Run (MbStep regSizes) (s.polled regSizes) [.byte 0x02] s₂ ∧ s₂.mb.Executes ∧
      (s₂.polled regSizes).calls = [⟨[0x11], [[0x01, 0x11, 0xC0, 0x2C]]⟩] := by
  have hadm : Admitted (MbSystem.next regSizes) (fun s e => Keeps s e ∧ s.Ready e)
      ((acceptEvents.foldl (MbSystem.next regSizes)
        (MbSystem.start 1 Slave.start fun _ => 0)).polled regSizes) [.byte 0x02] := by decide +kernel
  have hmid : Run (Guarded (MbStep regSizes) Keeps) _ [.byte 0x02] _ :=
    Run.of_admitted (fun s e h => ⟨h.1, h.2, rfl⟩) hadm
  obtain ⟨hex, -, -, hcalls, -⟩ := accepted_request_executed regSizes 1 Slave.start _ acceptEvents
    [.byte 0x02] _ _ acceptRun (by decide) accepts_report hmid
  exact ⟨_, _, acceptRun, hmid.of_guarded, hex, hcalls.trans (by decide +kernel)⟩

/-- A byte and T3.5 before the next poll: `EV_FRAME_RECEIVED` replaces `EV_EXECUTE`. -/
theorem accepted_request_lost :
    ¬ ∀ (sz : RegSizes) (ucMBAddress : U8) (slave : Slave) (buf : ℕ → U8) (evs mid : List MbEvent)
      (s s₂ : MbSystem), Run (MbStep sz) (MbSystem.start ucMBAddress slave buf) evs s →
        .disable ∉ evs → s.mb.Accepts → Run (MbStep sz) (s.polled sz) mid s₂ →
        .poll ∉ mid → .disable ∉ mid → s₂.mb.Executes := by
  intro hall
  let mid : List MbEvent := [.byte 0x02, .t35]
  have hadm : Admitted (MbSystem.next regSizes) MbSystem.Ready
      ((acceptEvents.foldl (MbSystem.next regSizes)
        (MbSystem.start 1 Slave.start fun _ => 0)).polled regSizes) mid := by decide +kernel
  have hmid : Run (MbStep regSizes) _ mid _ := Run.of_admitted (fun s e h => ⟨h, rfl⟩) hadm
  have hlost : ¬ (mid.foldl (MbSystem.next regSizes) ((acceptEvents.foldl (MbSystem.next regSizes)
      (MbSystem.start 1 Slave.start fun _ => 0)).polled regSizes)).mb.Executes := by decide +kernel
  exact hlost (hall regSizes 1 Slave.start _ acceptEvents mid _ _ acceptRun (by decide) accepts_report
    hmid (by decide) (by decide))

end Stm32F407
