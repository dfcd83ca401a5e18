import Stm32F407.Lib.Run
import Stm32F407.Spec.ModbusRtu

/-! The slave in operation: the serial and timer interrupts, `eMBPoll`, `eMBDisable`
and `eMBEnable` as atomic steps in any order. Beside the variables of the code the
state records what came over the line and what the handlers were called with. -/

namespace Stm32F407

open Lib

/-- A handler call of `eMBPoll`: the PDU with the length passed, and the frames
completed since the last `eMBEnable` at that time. -/
structure HandlerCall where
  pdu : List U8
  frames : List (List U8)
  deriving DecidableEq

/-- `cur` is the frame under reception, `frames` the frames completed by T3.5 since
`eMBEnable`. `late` tells that since the last frame was complete a second byte of a
further frame has come in, or the stack has been enabled again. -/
structure MbSystem where
  mb : Mb
  cur : List U8
  frames : List (List U8)
  calls : List HandlerCall
  late : Bool

inductive MbEvent where
  | byte (ucByte : U8)
  | t35
  | txComplete
  | poll
  | disable
  | enable
  deriving DecidableEq

/-- `e` is in the one-slot queue of `portevent.c`. -/
def Mb.Pending (m : Mb) (e : EMBEventType) : Prop :=
  m.rtu.xEventInQueue = true ∧ m.rtu.eQueuedEvent = e

instance (m : Mb) (e : EMBEventType) : Decidable (m.Pending e) := inferInstanceAs (Decidable (_ ∧ _))

/-- The next `eMBPoll` takes the `EV_EXECUTE` branch. -/
def Mb.Executes (m : Mb) : Prop := m.eMBState = .enabled ∧ m.Pending .execute

instance (m : Mb) : Decidable m.Executes := inferInstanceAs (Decidable (_ ∧ _))

namespace MbSystem

def received (s : MbSystem) (ucByte : U8) : MbSystem :=
  let s' := { s with mb := { s.mb with rtu := s.mb.rtu.xMBRTUReceiveFSM ucByte } }
  match s.mb.rtu.eRcvState with
  | .init | .error => s'
  | .idle => { s' with cur := [ucByte] }
  | .rcv => { s' with cur := s.cur ++ [ucByte], late := true }

def expired (s : MbSystem) : MbSystem :=
  let s' := { s with mb := { s.mb with rtu := s.mb.rtu.xMBRTUTimerT35Expired } }
  if s.mb.rtu.eRcvState = .rcv then { s' with frames := s.frames ++ [s.cur], late := false } else s'

def transmitted (s : MbSystem) : MbSystem :=
  { s with mb := { s.mb with rtu := s.mb.rtu.xMBRTUTransmitFSM } }

/-- `eMBPoll` calls a handler if the function code of the PDU is in the table. -/
def polled (sz : RegSizes) (s : MbSystem) : MbSystem :=
  let s' := { s with mb := s.mb.eMBPoll sz }
  if s.mb.Executes ∧ ∃ h ∈ xFuncHandlers sz s.mb.slave, h.1 = s.mb.pdu 0 then
    { s' with calls := s.calls ++ [⟨slice s.mb.pdu 0 s.mb.usLength.toNat, s.frames⟩] }
  else s'

def enabled (s : MbSystem) : MbSystem :=
  let s' := { s with mb := s.mb.eMBEnable }
  if s.mb.eMBState = .disabled then { s' with cur := [], frames := [], late := true } else s'

def disabled (s : MbSystem) : MbSystem := { s with mb := s.mb.eMBDisable }

def next (sz : RegSizes) (s : MbSystem) : MbEvent → MbSystem
  | .byte ucByte => s.received ucByte
  | .t35 => s.expired
  | .txComplete => s.transmitted
  | .poll => s.polled sz
  | .disable => s.disabled
  | .enable => s.enabled

/-- An interrupt comes only while the port has it enabled. -/
def Ready (s : MbSystem) : MbEvent → Prop
  | .byte _ => s.mb.rtu.xRxEnable = true
  | .t35 => s.mb.rtu.timersEnabled = true
  | .txComplete => s.mb.rtu.xTxEnable = true
  | .poll | .disable | .enable => True

instance (s : MbSystem) : (e : MbEvent) → Decidable (s.Ready e)
  | .byte _ => inferInstanceAs (Decidable (s.mb.rtu.xRxEnable = true))
  | .t35 => inferInstanceAs (Decidable (s.mb.rtu.timersEnabled = true))
  | .txComplete => inferInstanceAs (Decidable (s.mb.rtu.xTxEnable = true))
  | .poll | .disable | .enable => inferInstanceAs (Decidable True)

/-- After `eMBInit`; nothing has been received. -/
def start (ucSlaveAddress : U8) (slave : Slave) (buf : ℕ → U8) : MbSystem :=
  ⟨Mb.start ucSlaveAddress slave buf, [], [], [], true⟩

end MbSystem

def MbStep (sz : RegSizes) (s : MbSystem) (e : MbEvent) (s' : MbSystem) : Prop :=
  s.Ready e ∧ s' = s.next sz e

/-- A poll that executes a frame does so before the next frame gets beyond its first
byte, and without `eMBEnable` in between. -/
def InTime (s : MbSystem) (e : MbEvent) : Prop := e = .poll → s.mb.Executes → s.late = false

instance (s : MbSystem) (e : MbEvent) : Decidable (InTime s e) :=
  inferInstanceAs (Decidable (_ → _))

end Stm32F407
