import Stm32F407.Spec.ModbusFunc

/-! The RTU layer of `mbrtu.c` with the CRC of `mbcrc.c`, the one-slot event queue
and the interrupt enables of the port, and the protocol state of `mb.c`. The
port's `assert` is empty, so the asserted conditions are not part of the model. -/

namespace Stm32F407

open Lib

def aucCRCHi : List U8 :=
  [0x00, 0xC1, 0x81, 0x40, 0x01, 0xC0, 0x80, 0x41, 0x01, 0xC0, 0x80, 0x41, 0x00, 0xC1, 0x81, 0x40,
   0x01, 0xC0, 0x80, 0x41, 0x00, 0xC1, 0x81, 0x40, 0x00, 0xC1, 0x81, 0x40, 0x01, 0xC0, 0x80, 0x41,
   0x01, 0xC0, 0x80, 0x41, 0x00, 0xC1, 0x81, 0x40, 0x00, 0xC1, 0x81, 0x40, 0x01, 0xC0, 0x80, 0x41,
   0x00, 0xC1, 0x81, 0x40, 0x01, 0xC0, 0x80, 0x41, 0x01, 0xC0, 0x80, 0x41, 0x00, 0xC1, 0x81, 0x40,
   0x01, 0xC0, 0x80, 0x41, 0x00, 0xC1, 0x81, 0x40, 0x00, 0xC1, 0x81, 0x40, 0x01, 0xC0, 0x80, 0x41,
   0x00, 0xC1, 0x81, 0x40, 0x01, 0xC0, 0x80, 0x41, 0x01, 0xC0, 0x80, 0x41, 0x00, 0xC1, 0x81, 0x40,
   0x00, 0xC1, 0x81, 0x40, 0x01, 0xC0, 0x80, 0x41, 0x01, 0xC0, 0x80, 0x41, 0x00, 0xC1, 0x81, 0x40,
   0x01, 0xC0, 0x80, 0x41, 0x00, 0xC1, 0x81, 0x40, 0x00, 0xC1, 0x81, 0x40, 0x01, 0xC0, 0x80, 0x41,
   0x01, 0xC0, 0x80, 0x41, 0x00, 0xC1, 0x81, 0x40, 0x00, 0xC1, 0x81, 0x40, 0x01, 0xC0, 0x80, 0x41,
   0x00, 0xC1, 0x81, 0x40, 0x01, 0xC0, 0x80, 0x41, 0x01, 0xC0, 0x80, 0x41, 0x00, 0xC1, 0x81, 0x40,
   0x00, 0xC1, 0x81, 0x40, 0x01, 0xC0, 0x80, 0x41, 0x01, 0xC0, 0x80, 0x41, 0x00, 0xC1, 0x81, 0x40,
   0x01, 0xC0, 0x80, 0x41, 0x00, 0xC1, 0x81, 0x40, 0x00, 0xC1, 0x81, 0x40, 0x01, 0xC0, 0x80, 0x41,
   0x00, 0xC1, 0x81, 0x40, 0x01, 0xC0, 0x80, 0x41, 0x01, 0xC0, 0x80, 0x41, 0x00, 0xC1, 0x81, 0x40,
   0x01, 0xC0, 0x80, 0x41, 0x00, 0xC1, 0x81, 0x40, 0x00, 0xC1, 0x81, 0x40, 0x01, 0xC0, 0x80, 0x41,
   0x01, 0xC0, 0x80, 0x41, 0x00, 0xC1, 0x81, 0x40, 0x00, 0xC1, 0x81, 0x40, 0x01, 0xC0, 0x80, 0x41,
   0x00, 0xC1, 0x81, 0x40, 0x01, 0xC0, 0x80, 0x41, 0x01, 0xC0, 0x80, 0x41, 0x00, 0xC1, 0x81, 0x40]

def aucCRCLo : List U8 :=
  [0x00, 0xC0, 0xC1, 0x01, 0xC3, 0x03, 0x02, 0xC2, 0xC6, 0x06, 0x07, 0xC7, 0x05, 0xC5, 0xC4, 0x04,
   0xCC, 0x0C, 0x0D, 0xCD, 0x0F, 0xCF, 0xCE, 0x0E, 0x0A, 0xCA, 0xCB, 0x0B, 0xC9, 0x09, 0x08, 0xC8,
   0xD8, 0x18, 0x19, 0xD9, 0x1B, 0xDB, 0xDA, 0x1A, 0x1E, 0xDE, 0xDF, 0x1F, 0xDD, 0x1D, 0x1C, 0xDC,
   0x14, 0xD4, 0xD5, 0x15, 0xD7, 0x17, 0x16, 0xD6, 0xD2, 0x12, 0x13, 0xD3, 0x11, 0xD1, 0xD0, 0x10,
   0xF0, 0x30, 0x31, 0xF1, 0x33, 0xF3, 0xF2, 0x32, 0x36, 0xF6, 0xF7, 0x37, 0xF5, 0x35, 0x34, 0xF4,
   0x3C, 0xFC, 0xFD, 0x3D, 0xFF, 0x3F, 0x3E, 0xFE, 0xFA, 0x3A, 0x3B, 0xFB, 0x39, 0xF9, 0xF8, 0x38,
   0x28, 0xE8, 0xE9, 0x29, 0xEB, 0x2B, 0x2A, 0xEA, 0xEE, 0x2E, 0x2F, 0xEF, 0x2D, 0xED, 0xEC, 0x2C,
   0xE4, 0x24, 0x25, 0xE5, 0x27, 0xE7, 0xE6, 0x26, 0x22, 0xE2, 0xE3, 0x23, 0xE1, 0x21, 0x20, 0xE0,
   0xA0, 0x60, 0x61, 0xA1, 0x63, 0xA3, 0xA2, 0x62, 0x66, 0xA6, 0xA7, 0x67, 0xA5, 0x65, 0x64, 0xA4,
   0x6C, 0xAC, 0xAD, 0x6D, 0xAF, 0x6F, 0x6E, 0xAE, 0xAA, 0x6A, 0x6B, 0xAB, 0x69, 0xA9, 0xA8, 0x68,
   0x78, 0xB8, 0xB9, 0x79, 0xBB, 0x7B, 0x7A, 0xBA, 0xBE, 0x7E, 0x7F, 0xBF, 0x7D, 0xBD, 0xBC, 0x7C,
   0xB4, 0x74, 0x75, 0xB5, 0x77, 0xB7, 0xB6, 0x76, 0x72, 0xB2, 0xB3, 0x73, 0xB1, 0x71, 0x70, 0xB0,
   0x50, 0x90, 0x91, 0x51, 0x93, 0x53, 0x52, 0x92, 0x96, 0x56, 0x57, 0x97, 0x55, 0x95, 0x94, 0x54,
   0x9C, 0x5C, 0x5D, 0x9D, 0x5F, 0x9F, 0x9E, 0x5E, 0x5A, 0x9A, 0x9B, 0x5B, 0x99, 0x59, 0x58, 0x98,
   0x88, 0x48, 0x49, 0x89, 0x4B, 0x8B, 0x8A, 0x4A, 0x4E, 0x8E, 0x8F, 0x4F, 0x8D, 0x4D, 0x4C, 0x8C,
   0x44, 0x84, 0x85, 0x45, 0x87, 0x47, 0x46, 0x86, 0x82, 0x42, 0x43, 0x83, 0x41, 0x81, 0x80, 0x40]

/-- The loop of `usMBCRC16` over `usLen` bytes from cell `p` on. -/
def crcLoop (pucFrame : ℕ → U8) (p : ℕ) (ucCRCHi ucCRCLo : U8) : ℕ → U16
  | 0 => be16 ucCRCHi ucCRCLo
  | usLen + 1 =>
      let iIndex := (ucCRCLo ^^^ pucFrame p).toNat
      crcLoop pucFrame (p + 1) (aucCRCLo.getD iIndex 0) (ucCRCHi ^^^ aucCRCHi.getD iIndex 0) usLen

def usMBCRC16 (pucFrame : ℕ → U8) (p : ℕ) (usLen : ℕ) : U16 := crcLoop pucFrame p 0xFF 0xFF usLen

inductive EMBEventType where
  | ready
  | frameReceived
  | execute
  | frameSent
  deriving DecidableEq

inductive EMBRcvState where
  | init
  | idle
  | rcv
  | error
  deriving DecidableEq

inductive EMBSndState where
  | idle
  | xmit
  deriving DecidableEq

/-- The variables of `mbrtu.c` and of the port. `pucSndBufferCur` is an index of
`ucRTUBuf`; `put` and `posted` record the calls of `xMBPortSerialPutByte` and
`xMBPortEventPost`. -/
structure Rtu where
  eSndState : EMBSndState
  eRcvState : EMBRcvState
  ucRTUBuf : ℕ → U8
  pucSndBufferCur : ℕ
  usSndBufferCount : U16
  usRcvBufferPos : U16
  xRxEnable : Bool
  xTxEnable : Bool
  timersEnabled : Bool
  eQueuedEvent : EMBEventType
  xEventInQueue : Bool
  put : List U8
  posted : List EMBEventType

namespace Rtu

def vMBPortSerialEnable (r : Rtu) (xRxEnable xTxEnable : Bool) : Rtu :=
  { r with xRxEnable := xRxEnable, xTxEnable := xTxEnable }

def vMBPortTimersEnable (r : Rtu) : Rtu := { r with timersEnabled := true }

def vMBPortTimersDisable (r : Rtu) : Rtu := { r with timersEnabled := false }

def xMBPortSerialPutByte (r : Rtu) (ucByte : U8) : Rtu := { r with put := r.put ++ [ucByte] }

def xMBPortEventPost (r : Rtu) (eEvent : EMBEventType) : Rtu :=
  { r with eQueuedEvent := eEvent, xEventInQueue := true, posted := r.posted ++ [eEvent] }

def eMBRTUStart (r : Rtu) : Rtu :=
  let r := { r with eRcvState := .init }
  (r.vMBPortSerialEnable true false).vMBPortTimersEnable

def eMBRTUStop (r : Rtu) : Rtu := (r.vMBPortSerialEnable false false).vMBPortTimersDisable

/-- Address, index of the PDU in `ucRTUBuf` and length of the PDU. -/
def eMBRTUReceive (r : Rtu) : Except EMBErrorCode (U8 × ℕ × U16) :=
  if 4 ≤ r.usRcvBufferPos ∧ usMBCRC16 r.ucRTUBuf 0 r.usRcvBufferPos.toNat = 0 then
    .ok (r.ucRTUBuf 0, 1, r.usRcvBufferPos - 1 - 2)
  else .error .io

/-- `pucFrame` is an index of `ucRTUBuf`. -/
def eMBRTUSend (r : Rtu) (ucSlaveAddress : U8) (pucFrame : ℕ) (usLength : U16) : EMBErrorCode × Rtu :=
  if r.eRcvState = .idle then
    let cur := pucFrame - 1
    let buf := Function.update r.ucRTUBuf cur ucSlaveAddress
    let count := 1 + usLength
    let usCRC16 := usMBCRC16 buf cur count.toNat
    let buf := Function.update buf count.toNat (loByte usCRC16)
    let count := count + 1
    let buf := Function.update buf count.toNat (hiByte usCRC16)
    let count := count + 1
    let r := { r with ucRTUBuf := buf, eSndState := .xmit }
    let r := r.xMBPortSerialPutByte (buf cur)
    let r := { r with pucSndBufferCur := cur + 1, usSndBufferCount := count - 1 }
    (.noErr, r.vMBPortSerialEnable false true)
  else (.io, r)

/-- `ucByte` is the byte in the data register. -/
def xMBRTUReceiveFSM (r : Rtu) (ucByte : U8) : Rtu :=
  match r.eRcvState with
  | .init | .error => r.vMBPortTimersEnable
  | .idle =>
      let buf := Function.update r.ucRTUBuf 0 ucByte
      { r with ucRTUBuf := buf, usRcvBufferPos := 1, eRcvState := .rcv }.vMBPortTimersEnable
  | .rcv =>
      if r.usRcvBufferPos < 256 then
        let buf := Function.update r.ucRTUBuf r.usRcvBufferPos.toNat ucByte
        { r with ucRTUBuf := buf, usRcvBufferPos := r.usRcvBufferPos + 1 }.vMBPortTimersEnable
      else { r with eRcvState := .error }.vMBPortTimersEnable

def xMBRTUTransmitFSM (r : Rtu) : Rtu :=
  match r.eSndState with
  | .idle => r.vMBPortSerialEnable true false
  | .xmit =>
      if r.usSndBufferCount ≠ 0 then
        let r := r.xMBPortSerialPutByte (r.ucRTUBuf r.pucSndBufferCur)
        { r with
          pucSndBufferCur := r.pucSndBufferCur + 1, usSndBufferCount := r.usSndBufferCount - 1 }
      else
        let r := (r.xMBPortEventPost .frameSent).vMBPortSerialEnable true false
        { r with eSndState := .idle }

def xMBRTUTimerT35Expired (r : Rtu) : Rtu :=
  let r :=
    match r.eRcvState with
    | .init => r.xMBPortEventPost .ready
    | .rcv => r.xMBPortEventPost .frameReceived
    | .error | .idle => r
  { r.vMBPortTimersDisable with eRcvState := .idle }

end Rtu

inductive MBState where
  | enabled
  | disabled
  | notInitialized
  deriving DecidableEq

/-- The protocol stack: its own variables, the RTU layer below it and the data
behind the function handlers. `ucMBFrame` is an index of `ucRTUBuf`. -/
structure Mb where
  eMBState : MBState
  ucMBAddress : U8
  ucMBFrame : ℕ
  ucRcvAddress : U8
  usLength : U16
  rtu : Rtu
  slave : Slave

namespace Mb

def eMBEnable (m : Mb) : Mb :=
  if m.eMBState = .disabled then { m with rtu := m.rtu.eMBRTUStart, eMBState := .enabled } else m

def eMBDisable (m : Mb) : Mb :=
  if m.eMBState = .enabled then { m with rtu := m.rtu.eMBRTUStop, eMBState := .disabled } else m

/-- The PDU that a handler is given: the buffer from `ucMBFrame` on. -/
def pdu (m : Mb) : ℕ → U8 := fun i => m.rtu.ucRTUBuf (m.ucMBFrame + i)

/-- The buffer after a handler worked on the PDU in place. -/
def storePdu (m : Mb) (frame : ℕ → U8) : ℕ → U8 := fun k =>
  if k < m.ucMBFrame then m.rtu.ucRTUBuf k else frame (k - m.ucMBFrame)

/-- The `EV_FRAME_RECEIVED` branch of `eMBPoll`. -/
def pollFrameReceived (m : Mb) : Mb :=
  match m.rtu.eMBRTUReceive with
  | .ok (ucRcvAddress, ucMBFrame, usLength) =>
      let m := { m with ucRcvAddress := ucRcvAddress, ucMBFrame := ucMBFrame, usLength := usLength }
      if ucRcvAddress = m.ucMBAddress ∨ ucRcvAddress = 0 then
        { m with rtu := m.rtu.xMBPortEventPost .execute }
      else m
  | .error _ => m

/-- The `EV_EXECUTE` branch of `eMBPoll`; a broadcast is not answered. -/
def pollExecute (sz : RegSizes) (m : Mb) : Mb :=
  let ucFunctionCode := m.pdu 0
  let out := dispatch sz m.slave m.pdu m.usLength
  let out := if m.ucRcvAddress ≠ 0 then errorFrame ucFunctionCode out else out
  let rtu := { m.rtu with ucRTUBuf := m.storePdu out.frame }
  let slave := { m.slave with regs := out.regs }
  let m : Mb := { m with rtu := rtu, slave := slave, usLength := out.usLen }
  if m.ucRcvAddress ≠ 0 then
    { m with rtu := (rtu.eMBRTUSend m.ucMBAddress m.ucMBFrame m.usLength).2 }
  else m

def eMBPoll (sz : RegSizes) (m : Mb) : Mb :=
  if m.eMBState ≠ .enabled then m
  else if m.rtu.xEventInQueue then
    let m := { m with rtu := { m.rtu with xEventInQueue := false } }
    match m.rtu.eQueuedEvent with
    | .ready => m
    | .frameReceived => m.pollFrameReceived
    | .execute => m.pollExecute sz
    | .frameSent => m
  else m

/-- After `eMBInit`: the timer runs, the serial interrupts are off, the queue is empty. -/
def start (ucSlaveAddress : U8) (slave : Slave) (buf : ℕ → U8) : Mb where
  eMBState := .disabled
  ucMBAddress := ucSlaveAddress
  ucMBFrame := 0
  ucRcvAddress := 0
  usLength := 0
  rtu :=
    { eSndState := .idle, eRcvState := .init, ucRTUBuf := buf, pucSndBufferCur := 0
      usSndBufferCount := 0, usRcvBufferPos := 0, xRxEnable := false, xTxEnable := false
      timersEnabled := true, eQueuedEvent := .ready, xEventInQueue := false, put := [], posted := [] }
  slave := slave

end Mb

end Stm32F407
