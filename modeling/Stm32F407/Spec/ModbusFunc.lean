import Stm32F407.Lib.Cells
import Stm32F407.Spec.ModbusRegs

/-! The function handlers of `functions/*.c` and the `EV_EXECUTE` branch of
`eMBPoll` with its handler table. A PDU is a memory with the function code in
cell 0; a reply is built in place over the request. -/

namespace Stm32F407

open Lib

/-- What a handler sees besides the PDU: the register tables, and the buffer that
`eMBSetSlaveID` filled. -/
structure Slave where
  regs : Regs
  ucMBSlaveID : ℕ → U8
  usMBSlaveIDLen : U16

/-- Power-up: no slave identification is set. -/
def Slave.start : Slave := ⟨Regs.start, fun _ => 0, 0⟩

structure HandlerResult where
  eStatus : EMBException
  frame : ℕ → U8
  usLen : U16
  regs : Regs

def pduWord (pucFrame : ℕ → U8) (k : ℕ) : U16 := be16 (pucFrame k) (pucFrame (k + 1))

/-- `usCoilCount / 8`, rounded up by the test of the low three bits. -/
def coilBytes (usCoilCount : U16) : U8 :=
  if usCoilCount &&& 0x0007 ≠ 0 then (usCoilCount / 8 + 1).setWidth 8
  else (usCoilCount / 8).setWidth 8

/-- The handlers of the function codes 01, 02 and 04: `max` is the quantity that is
already too large, `nBytes` the byte count they put into the reply, `grow` what they
add to the length, `cb` the callback that fills the reply. -/
def readRequest (fc : U8) (max : U16) (nBytes : U16 → U8) (grow : U16 → U16)
    (cb : (ℕ → U8) → ℕ → U16 → U16 → EMBErrorCode × (ℕ → U8))
    (s : Slave) (pucFrame : ℕ → U8) (usLen : U16) : HandlerResult :=
  if usLen = 5 then
    let usRegAddress := pduWord pucFrame 1 + 1
    let usRegCount := pduWord pucFrame 3
    if 1 ≤ usRegCount ∧ usRegCount < max then
      let frame := Function.update pucFrame 0 fc
      let frame := Function.update frame 1 (nBytes usRegCount)
      let (eRegStatus, frame) := cb frame 2 usRegAddress usRegCount
      if eRegStatus ≠ .noErr then ⟨prveMBError2Exception eRegStatus, frame, 2, s.regs⟩
      else ⟨.none, frame, 2 + grow usRegCount, s.regs⟩
    else ⟨.illegalDataValue, pucFrame, usLen, s.regs⟩
  else ⟨.illegalDataValue, pucFrame, usLen, s.regs⟩

def eMBFuncReadCoils (sz : RegSizes) (s : Slave) : (ℕ → U8) → U16 → HandlerResult :=
  readRequest 1 0x07D0 coilBytes (fun n => (coilBytes n).setWidth 16)
    (fun buf p a n =>
      let r := eMBRegCoilsCB sz s.regs buf p a n .read
      (r.1, r.2.1)) s

def eMBFuncReadDiscreteInputs (sz : RegSizes) (s : Slave) : (ℕ → U8) → U16 → HandlerResult :=
  readRequest 2 0x07D0 coilBytes (fun n => (coilBytes n).setWidth 16) (eMBRegDiscreteCB sz s.regs) s

def eMBFuncReadInputRegister (sz : RegSizes) (s : Slave) : (ℕ → U8) → U16 → HandlerResult :=
  readRequest 4 0x007D (fun n => (n * 2).setWidth 8) (fun n => n * 2) (eMBRegInputCB sz s.regs) s

/-- The second assignment to `usRegCount` drops the high byte of the quantity. -/
def eMBFuncReadHoldingRegister (sz : RegSizes) (s : Slave) (pucFrame : ℕ → U8) (usLen : U16) :
    HandlerResult :=
  if usLen = 5 then
    let usRegAddress := pduWord pucFrame 1 + 1
    let usRegCount : U16 := (pucFrame 4).setWidth 16
    if 1 ≤ usRegCount ∧ usRegCount ≤ 0x007D then
      let frame := Function.update pucFrame 0 3
      let frame := Function.update frame 1 ((usRegCount * 2).setWidth 8)
      let (eRegStatus, frame, regs) := eMBRegHoldingCB sz s.regs frame 2 usRegAddress usRegCount .read
      if eRegStatus ≠ .noErr then ⟨prveMBError2Exception eRegStatus, frame, 2, regs⟩
      else ⟨.none, frame, 2 + usRegCount * 2, regs⟩
    else ⟨.illegalDataValue, pucFrame, usLen, s.regs⟩
  else ⟨.illegalDataValue, pucFrame, usLen, s.regs⟩

def eMBFuncWriteHoldingRegister (sz : RegSizes) (s : Slave) (pucFrame : ℕ → U8) (usLen : U16) :
    HandlerResult :=
  if usLen = 5 then
    let usRegAddress := pduWord pucFrame 1 + 1
    let (eRegStatus, frame, regs) := eMBRegHoldingCB sz s.regs pucFrame 3 usRegAddress 1 .write
    if eRegStatus ≠ .noErr then ⟨prveMBError2Exception eRegStatus, frame, usLen, regs⟩
    else ⟨.none, frame, usLen, regs⟩
  else ⟨.illegalDataValue, pucFrame, usLen, s.regs⟩

def eMBFuncWriteMultipleHoldingRegister (sz : RegSizes) (s : Slave) (pucFrame : ℕ → U8)
    (usLen : U16) : HandlerResult :=
  if 6 ≤ usLen then
    let usRegAddress := pduWord pucFrame 1 + 1
    let usRegCount := pduWord pucFrame 3
    let ucRegByteCount := pucFrame 5
    if 1 ≤ usRegCount ∧ usRegCount ≤ 0x0078 ∧ ucRegByteCount = (2 * usRegCount).setWidth 8 then
      let (eRegStatus, frame, regs) :=
        eMBRegHoldingCB sz s.regs pucFrame 6 usRegAddress usRegCount .write
      if eRegStatus ≠ .noErr then ⟨prveMBError2Exception eRegStatus, frame, usLen, regs⟩
      else ⟨.none, frame, 5, regs⟩
    else ⟨.illegalDataValue, pucFrame, usLen, s.regs⟩
  else ⟨.illegalDataValue, pucFrame, usLen, s.regs⟩

/-- A request that is too short is answered without an exception. -/
def eMBFuncReadWriteMultipleHoldingRegister (sz : RegSizes) (s : Slave) (pucFrame : ℕ → U8)
    (usLen : U16) : HandlerResult :=
  if 10 ≤ usLen then
    let usRegReadAddress := pduWord pucFrame 1 + 1
    let usRegReadCount := pduWord pucFrame 3
    let usRegWriteAddress := pduWord pucFrame 5 + 1
    let usRegWriteCount := pduWord pucFrame 7
    let ucRegWriteByteCount := pucFrame 9
    if (1 ≤ usRegReadCount ∧ usRegReadCount ≤ 0x7D) ∧ (1 ≤ usRegWriteCount ∧ usRegWriteCount ≤ 0x79) ∧
        2 * usRegWriteCount.toNat = ucRegWriteByteCount.toNat then
      let (eRegStatus, frame, regs) :=
        eMBRegHoldingCB sz s.regs pucFrame 10 usRegWriteAddress usRegWriteCount .write
      if eRegStatus = .noErr then
        let frame := Function.update frame 0 23
        let frame := Function.update frame 1 ((usRegReadCount * 2).setWidth 8)
        let (eRegStatus, frame, regs) :=
          eMBRegHoldingCB sz regs frame 2 usRegReadAddress usRegReadCount .read
        if eRegStatus = .noErr then ⟨.none, frame, 2 + 2 * usRegReadCount, regs⟩
        else ⟨prveMBError2Exception eRegStatus, frame, 2, regs⟩
      else ⟨prveMBError2Exception eRegStatus, frame, usLen, regs⟩
    else ⟨.illegalDataValue, pucFrame, usLen, s.regs⟩
  else ⟨.none, pucFrame, usLen, s.regs⟩

def eMBFuncWriteCoil (sz : RegSizes) (s : Slave) (pucFrame : ℕ → U8) (usLen : U16) : HandlerResult :=
  if usLen = 5 then
    let usRegAddress := pduWord pucFrame 1 + 1
    if pucFrame 4 = 0x00 ∧ (pucFrame 3 = 0xFF ∨ pucFrame 3 = 0x00) then
      -- `ucBuf` is a local array, the frame is not touched
      let ucBuf : ℕ → U8 := fun i => if i = 0 ∧ pucFrame 3 = 0xFF then 1 else 0
      let (eRegStatus, _, regs) := eMBRegCoilsCB sz s.regs ucBuf 0 usRegAddress 1 .write
      if eRegStatus ≠ .noErr then ⟨prveMBError2Exception eRegStatus, pucFrame, usLen, regs⟩
      else ⟨.none, pucFrame, usLen, regs⟩
    else ⟨.illegalDataValue, pucFrame, usLen, s.regs⟩
  else ⟨.illegalDataValue, pucFrame, usLen, s.regs⟩

def eMBFuncWriteMultipleCoils (sz : RegSizes) (s : Slave) (pucFrame : ℕ → U8) (usLen : U16) :
    HandlerResult :=
  if 5 < usLen then
    let usRegAddress := pduWord pucFrame 1 + 1
    let usCoilCnt := pduWord pucFrame 3
    let ucByteCount := pucFrame 5
    if 1 ≤ usCoilCnt ∧ usCoilCnt ≤ 0x07B0 ∧ coilBytes usCoilCnt = ucByteCount then
      let (eRegStatus, frame, regs) :=
        eMBRegCoilsCB sz s.regs pucFrame 6 usRegAddress usCoilCnt .write
      if eRegStatus ≠ .noErr then ⟨prveMBError2Exception eRegStatus, frame, usLen, regs⟩
      else ⟨.none, frame, 5, regs⟩
    else ⟨.illegalDataValue, pucFrame, usLen, s.regs⟩
  else ⟨.illegalDataValue, pucFrame, usLen, s.regs⟩

def eMBFuncReportSlaveID (s : Slave) (pucFrame : ℕ → U8) (_usLen : U16) : HandlerResult :=
  ⟨.none, blit pucFrame 1 (slice s.ucMBSlaveID 0 s.usMBSlaveIDLen.toNat), 1 + s.usMBSlaveIDLen, s.regs⟩

/-- `MB_FUNC_OTHER_REP_SLAVEID_BUF` is 32. The comparison is one of `int`s. -/
def eMBSetSlaveID (s : Slave) (ucSlaveID : U8) (xIsRunning : Bool) (pucAdditional : ℕ → U8)
    (usAdditionalLen : U16) : EMBErrorCode × Slave :=
  if usAdditionalLen.toNat + 2 < 32 then
    let id := Function.update s.ucMBSlaveID 0 ucSlaveID
    let id := Function.update id 1 (if xIsRunning then 0xFF else 0x00)
    let usMBSlaveIDLen : U16 := 2
    if 0 < usAdditionalLen then
      let id := blit id 2 (slice pucAdditional 0 usAdditionalLen.toNat)
      (.noErr, { s with ucMBSlaveID := id, usMBSlaveIDLen := usMBSlaveIDLen + usAdditionalLen })
    else (.noErr, { s with ucMBSlaveID := id, usMBSlaveIDLen := usMBSlaveIDLen })
  else (.noRes, s)

/-- The filled entries of `xFuncHandlers`; the remaining ones hold function code 0. -/
def xFuncHandlers (sz : RegSizes) (s : Slave) : List (U8 × ((ℕ → U8) → U16 → HandlerResult)) :=
  [(17, eMBFuncReportSlaveID s),
   (4, eMBFuncReadInputRegister sz s),
   (3, eMBFuncReadHoldingRegister sz s),
   (16, eMBFuncWriteMultipleHoldingRegister sz s),
   (6, eMBFuncWriteHoldingRegister sz s),
   (23, eMBFuncReadWriteMultipleHoldingRegister sz s),
   (1, eMBFuncReadCoils sz s),
   (5, eMBFuncWriteCoil sz s),
   (15, eMBFuncWriteMultipleCoils sz s),
   (2, eMBFuncReadDiscreteInputs sz s)]

/-- The `for` loop of `eMBPoll` over the handler table. -/
def dispatch (sz : RegSizes) (s : Slave) (ucMBFrame : ℕ → U8) (usLength : U16) : HandlerResult :=
  match (xFuncHandlers sz s).find? (fun h => h.1 = ucMBFrame 0) with
  | some h => h.2 ucMBFrame usLength
  | none => ⟨.illegalFunction, ucMBFrame, usLength, s.regs⟩

/-- The error frame that `eMBPoll` builds when the handler returned an exception. -/
def errorFrame (ucFunctionCode : U8) (r : HandlerResult) : HandlerResult :=
  if r.eStatus ≠ .none then
    let frame := Function.update r.frame 0 (ucFunctionCode ||| 128)
    { r with frame := Function.update frame 1 r.eStatus.code, usLen := 2 }
  else r

/-- Handling of a request that is not a broadcast, up to the call that sends the reply. -/
def execute (sz : RegSizes) (s : Slave) (ucMBFrame : ℕ → U8) (usLength : U16) : HandlerResult :=
  errorFrame (ucMBFrame 0) (dispatch sz s ucMBFrame usLength)

def HandlerResult.reply (r : HandlerResult) : List U8 := slice r.frame 0 r.usLen.toNat

end Stm32F407
