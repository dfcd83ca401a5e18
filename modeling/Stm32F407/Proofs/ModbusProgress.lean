import Stm32F407.Proofs.ModbusBus
import Stm32F407.Proofs.ModbusHolding

/-! The bus does not get stuck: from every reachable state the steps that are
possible there complete the reception, the handling and the reply of the request
under way. And a master that works on the holding registers over the line sees a
plain array. -/

namespace Stm32F407

open Lib

variable {sz : RegSizes} {a : U8} {v : Server} {q : Request}

namespace Bus

/-- Interrupts and polls alone can lead to a slave that listens to a quiet line. -/
def Finishes (sz : RegSizes) (b : MbBus) : Prop :=
  ∃ (evs : List MbEvent) (b' : MbBus), Run (BusStep sz) b (evs.map .slave) b' ∧
    b'.requests = b.requests ∧ b'.line = [] ∧ b'.slave.mb.Listening

namespace Finishes

variable {b : MbBus}

theorem of_listens (hline : b.line = []) (h : Listens a v b.slave.mb) : Finishes sz b :=
  ⟨[], b, Run.nil, rfl, hline, h.rcv, h.snd, h.queue.1, h.queue.2⟩

theorem of_step {e : MbEvent} (hready : b.Ready sz (.slave e))
    (hreq : (b.next sz (.slave e)).requests = b.requests) (h : Finishes sz (b.next sz (.slave e))) :
    Finishes sz b := by
  obtain ⟨evs, b', hrun, hsame, hline, hl⟩ := h
  exact ⟨e :: evs, b', (Run.single ⟨hready, rfl⟩).append hrun, hsame.trans hreq, hline, hl⟩

theorem of_replies {i : ℕ} (hline : b.line = []) (h : Replies sz a v q i b.slave.mb) :
    Finishes sz b := by
  generalize hn : (rtuFrame a (v.reply sz q)).length - i = n
  induction n generalizing b i with
  | zero =>
    obtain ⟨posted, hs⟩ := h.sending
    refine of_step (e := .txComplete) hs.enabled rfl ?_
    rcases h.tx with hnext | ⟨-, hdone⟩
    · have := hnext.bound
      omega
    · exact of_listens hline hdone
  | succ n ih =>
    obtain ⟨posted, hs⟩ := h.sending
    refine of_step (e := .txComplete) hs.enabled rfl ?_
    rcases h.tx with hnext | ⟨-, hdone⟩
    · exact ih (b := b.next sz (.slave .txComplete)) hline hnext (by omega)
    · exact of_listens hline hdone

theorem of_poll (hline : b.line = [])
    (h : ∀ b' : MbBus, b'.line = [] → b'.slave.mb = b.slave.mb.eMBPoll sz → Finishes sz b') :
    Finishes sz b :=
  of_step (e := .poll) trivial rfl
    (h (b.next sz (.slave .poll)) hline (b.slave.polled_mb sz))

theorem of_accepted (hline : b.line = []) (h : Accepted a v q b.slave.mb) (hfit : q.Fits sz a)
    (hid : v.slave.IdFits) : Finishes sz b := by
  refine of_poll hline fun b' hline' hmb => ?_
  rcases h.poll hfit hid with hrep | hdone
  · exact of_replies hline' (hmb ▸ hrep)
  · exact of_listens hline' (hmb ▸ hdone)

theorem of_hasFrame (hline : b.line = []) (h : HasFrame a v q b.slave.mb) (hfit : q.Fits sz a)
    (hid : v.slave.IdFits) : Finishes sz b := by
  refine of_poll hline fun b' hline' hmb => ?_
  have hpoll : Accepted a v q (b.slave.mb.eMBPoll sz) ∨
      Listens a (v.step sz a q) (b.slave.mb.eMBPoll sz) := h.poll ⟨hfit.1, hfit.2.1⟩
  rcases hpoll with hacc | hdone
  · exact of_accepted hline' (hmb ▸ hacc) hfit hid
  · exact of_listens hline' (hmb ▸ hdone)

/-- The bytes left come in, then T3.5 runs out. -/
theorem of_receives {got : List U8} (hfit : q.Fits sz a) (hid : v.slave.IdFits)
    (hline : got ++ b.line = rtuFrame q.1 q.2) (h : Receives a v got b.slave.mb) : Finishes sz b := by
  generalize hrest : b.line = rest at hline
  induction rest generalizing b got with
  | nil =>
    rw [List.append_nil] at hline
    subst hline
    have htimer : b.slave.mb.rtu.timersEnabled = true := by
      rcases h.rcv with ⟨hnil, -⟩ | ⟨-, ht⟩
      · exact absurd (congrArg List.length hnil) (by simp)
      · exact ht
    refine of_step (e := .t35) ⟨hrest, htimer⟩ rfl ?_
    refine of_hasFrame (v := v) hrest ?_ hfit hid
    exact (congrArg (HasFrame a v q) b.slave.expired_mb.1).mpr h.t35
  | cons c rest ih =>
    have hlen := congrArg List.length hline
    rw [List.length_append, List.length_cons, rtuFrame_length] at hlen
    have hmax := hfit.2.1
    refine of_step (e := .byte c) ⟨by rw [hrest]; rfl, h.rx⟩ rfl ?_
    have hnext : Receives a v (got ++ [c]) (b.slave.received c).mb :=
      (congrArg (Receives a v _) (b.slave.received_mb c).1).mpr (h.byte (by omega) c)
    refine ih hnext (congrArg List.tail hrest) ?_
    rw [List.append_assoc]
    exact hline

theorem of_phase {slave : Slave} (hid : slave.IdFits)
    (h : Phase sz a slave b.requests b.line b.slave.mb) : Finishes sz b := by
  generalize hreq : b.requests = reqs at h
  generalize hline : b.line = line at h
  generalize hmb : b.slave.mb = m at h
  cases h with
  | starts h =>
    subst hmb
    refine of_step (e := .t35) ⟨hline, h.timer⟩ rfl ?_
    have hl : Listens a (serveRequests sz a slave []) b.slave.expired.mb :=
      (congrArg (Listens a _) b.slave.expired_mb.1).mpr h.t35
    exact of_listens hline hl
  | listens h => exact of_listens hline (hmb ▸ h)
  | receives hfit hgot h =>
    exact of_receives hfit (serveRequests_idFits hid _) (hline ▸ hgot) (hmb ▸ h)
  | hasFrame hfit h => exact of_hasFrame hline (hmb ▸ h) hfit (serveRequests_idFits hid _)
  | accepted hfit h => exact of_accepted hline (hmb ▸ h) hfit (serveRequests_idFits hid _)
  | replies h => exact of_replies hline (hmb ▸ h)

end Finishes

end Bus

open Bus in
/-- From every state that the bus reaches with a master that waits, the interrupts and polls
that are possible there lead, without a further request, to a slave that listens again and
has answered all requests. -/
theorem bus_answers (sz : RegSizes) (ucMBAddress : U8) (slave : Slave) (buf : ℕ → U8)
    {evs : List BusEvent} {b : MbBus} (hid : slave.IdFits)
    (hrun : Run (BusStep sz) (MbBus.start ucMBAddress slave buf) evs b) :
    ∃ (evs' : List MbEvent) (b' : MbBus), Run (BusStep sz) b (evs'.map .slave) b' ∧
      b'.line = [] ∧ b'.slave.mb.Listening ∧
      b'.slave.mb.rtu.put = (serveRequests sz ucMBAddress slave b.requests).put := by
  have h := (Phase.start sz ucMBAddress slave buf).run hid hrun
  obtain ⟨evs', b', hrun', hreq, hline, hl⟩ := Finishes.of_phase hid h
  have h' := h.run hid hrun'
  rw [hline, hreq] at h'
  exact ⟨evs', b', hrun', hline, hl, (h'.listening hl).put⟩

/-- From the middle of a request for the slave identification. -/
theorem bus_answers_report : ∃ (b : MbBus) (evs : List MbEvent) (b' : MbBus),
    Run (BusStep regSizes) (MbBus.start 1 Slave.start fun _ => 0) (reportBus.take 5) b ∧
      Run (BusStep regSizes) b (evs.map .slave) b' ∧ b'.line = [] ∧ b'.slave.mb.Listening ∧
      b'.slave.mb.rtu.put = [1, 0x11, 0xC0, 0x2C] := by
  have hadm : Admitted (MbBus.next regSizes) (MbBus.Ready regSizes)
      (MbBus.start 1 Slave.start fun _ => 0) (reportBus.take 5) := by decide +kernel
  have hrun : Run (BusStep regSizes) _ (reportBus.take 5) _ :=
    Run.of_admitted (fun s e h => ⟨h, rfl⟩) hadm
  have hid : Slave.start.IdFits := by decide
  obtain ⟨evs, b', hrun', hline, hl, hput⟩ := bus_answers regSizes 1 Slave.start _ hid hrun
  have hreply : (serveRequests regSizes 1 Slave.start ((reportBus.take 5).foldl (MbBus.next regSizes)
      (MbBus.start 1 Slave.start fun _ => 0)).requests).put = [1, 0x11, 0xC0, 0x2C] := by
    decide +kernel
  exact ⟨_, evs, b', hrun, hrun', hline, hl, hput.trans hreply⟩

def HoldingRequest.toSlave (a : U8) (q : HoldingRequest) : Request := (a, q.encode)

theorem Server.step_holding (v : Server) (ha : a ≠ 0) (q : HoldingRequest)
    (hwf : q.WellFormed sz.holdingNRegs) :
    let out := serve sz.holdingNRegs v.slave.regs.usRegHoldingBuf q
    v.step sz a (q.toSlave a) =
      { slave := { v.slave with regs := { v.slave.regs with usRegHoldingBuf := out.2 } }
        put := v.put ++ rtuFrame a out.1 } := by
  intro out
  have hq : Holds (q.toSlave a).pdu 0 q.encode := holds_blit _ _ _
  obtain ⟨hreply, hregs⟩ := serves_request (s := v.slave) q hq hwf
  have hlen : (q.toSlave a).len = BitVec.ofNat 16 q.encode.length := rfl
  have hdest : (q.toSlave a).1 = a := rfl
  unfold Server.step
  simp only [hdest, if_neg ha, if_pos, hlen, hreply, hregs]
  rfl

/-- The server that executes PDUs is the one that keeps an array. -/
theorem serveRequests_holding (slave : Slave) (ha : a ≠ 0) (qs : List HoldingRequest)
    (hwf : ∀ q ∈ qs, q.WellFormed sz.holdingNRegs) :
    let served := serveRequests sz a slave (qs.map (·.toSlave a))
    let array := serveAll sz.holdingNRegs slave.regs.usRegHoldingBuf qs
    served.put = array.1.flatMap (rtuFrame a) ∧
      served.slave = { slave with regs := { slave.regs with usRegHoldingBuf := array.2 } } := by
  induction qs using List.reverseRecOn with
  | nil => exact ⟨rfl, rfl⟩
  | append_singleton qs q ih =>
    obtain ⟨hput, hslave⟩ := ih fun q hq => hwf q (List.mem_append_left _ hq)
    have hq := hwf q (List.mem_append_right _ List.mem_cons_self)
    simp only [List.map_append, List.map_cons, List.map_nil, serveRequests_snoc, serveAll_snoc,
      List.flatMap_append, List.flatMap_singleton, Server.step_holding _ ha q hq]
    exact ⟨by rw [hput, hslave], by rw [hslave]⟩

/-- A master that sends well-formed requests to the holding registers, each one only while the
slave listens to a quiet line, gets the frames of the reference slave with a plain array
at any pace of the interrupts and polls, and when the slave listens again its registers
are that array. -/
theorem bus_holding_array (sz : RegSizes) (ucMBAddress : U8) (slave : Slave) (buf : ℕ → U8)
    (qs : List HoldingRequest) {evs : List BusEvent} {b : MbBus} (ha : ucMBAddress ≠ 0)
    (hid : slave.IdFits) (hwf : ∀ q ∈ qs, q.WellFormed sz.holdingNRegs)
    (hrun : Run (BusStep sz) (MbBus.start ucMBAddress slave buf) evs b)
    (hqs : b.requests = qs.map (·.toSlave ucMBAddress)) :
    let array := serveAll sz.holdingNRegs slave.regs.usRegHoldingBuf qs
    b.slave.mb.rtu.put <+: array.1.flatMap (rtuFrame ucMBAddress) ∧
      (b.line = [] → b.slave.mb.Listening →
        b.slave.mb.rtu.put = array.1.flatMap (rtuFrame ucMBAddress) ∧
        b.slave.mb.slave.regs = { slave.regs with usRegHoldingBuf := array.2 }) := by
  intro array
  have h := (Bus.Phase.start sz ucMBAddress slave buf).run hid hrun
  obtain ⟨hput, hslave⟩ := serveRequests_holding slave ha qs hwf
  rw [hqs] at h
  refine ⟨hput ▸ h.put_prefix, fun hline hl => ?_⟩
  rw [hline] at h
  have hdone := h.listening hl
  exact ⟨hdone.put.trans hput, (congrArg Slave.regs (hdone.slave.trans hslave))⟩

/-- `q` is sent, and handled in two polls; the reply takes `n` transmit interrupts. -/
def exchange (q : Request) (n : ℕ) : List BusEvent :=
  sent q ++ [.slave .poll, .slave .poll] ++ List.replicate n (.slave .txComplete)

def writeThenRead : List BusEvent :=
  .slave .t35 :: exchange (1, [6, 0, 7, 0x12, 0x34]) 8 ++ exchange (1, [3, 0, 7, 0, 1]) 7

theorem bus_holding_array_eight : ∃ b,
    Run (BusStep regSizes) (MbBus.start 1 Slave.start fun _ => 0) writeThenRead b ∧
      b.slave.mb.rtu.put = rtuFrame 1 [6, 0, 7, 0x12, 0x34] ++ rtuFrame 1 [3, 2, 0x12, 0x34] ∧
      b.slave.mb.slave.regs.usRegHoldingBuf 7 = 0x1234 := by
  have hadm : Admitted (MbBus.next regSizes) (MbBus.Ready regSizes)
      (MbBus.start 1 Slave.start fun _ => 0) writeThenRead := by decide +kernel
  have hrun : Run (BusStep regSizes) _ writeThenRead _ := Run.of_admitted (fun s e h => ⟨h, rfl⟩) hadm
  have hid : Slave.start.IdFits := by decide
  have hend : (writeThenRead.foldl (MbBus.next regSizes)
        (MbBus.start 1 Slave.start fun _ => 0)).line = [] ∧
      (writeThenRead.foldl (MbBus.next regSizes)
        (MbBus.start 1 Slave.start fun _ => 0)).slave.mb.Listening := by decide +kernel
  let qs : List HoldingRequest := [.writeSingle 7 0x1234, .read 7 1]
  have hwf : ∀ q ∈ qs, q.WellFormed regSizes.holdingNRegs := by
    simp [qs, HoldingRequest.WellFormed]
  obtain ⟨hput, hregs⟩ :=
    (bus_holding_array regSizes 1 Slave.start _ qs (by decide) hid hwf hrun rfl).2 hend.1 hend.2
  exact ⟨_, hrun, hput.trans (by decide +kernel), by rw [hregs]; decide +kernel⟩

end Stm32F407
