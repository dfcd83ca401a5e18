import Stm32F407.Spec.Word
import Stm32F407.Lib.Cells

/-! The register tables of `modbus.c` with their four callbacks, and the bit
helpers of `mbutils.c`. Tables and buffers are reached through plain pointers, so
they are memories of cells; all four start addresses are 0. -/

namespace Stm32F407

inductive EMBErrorCode where
  | noErr
  | noReg
  | inval
  | portErr
  | noRes
  | io
  | illState
  | timedOut
  deriving DecidableEq

inductive EMBException where
  | none
  | illegalFunction
  | illegalDataAddress
  | illegalDataValue
  | slaveDeviceFailure
  | acknowledge
  | slaveBusy
  | memoryParityError
  | gatewayPathFailed
  | gatewayTgtFailed
  deriving DecidableEq

def EMBException.code : EMBException → U8
  | .none => 0x00
  | .illegalFunction => 0x01
  | .illegalDataAddress => 0x02
  | .illegalDataValue => 0x03
  | .slaveDeviceFailure => 0x04
  | .acknowledge => 0x05
  | .slaveBusy => 0x06
  | .memoryParityError => 0x08
  | .gatewayPathFailed => 0x0A
  | .gatewayTgtFailed => 0x0B

def prveMBError2Exception : EMBErrorCode → EMBException
  | .noErr => .none
  | .noReg => .illegalDataAddress
  | .timedOut => .slaveBusy
  | _ => .slaveDeviceFailure

inductive EMBRegisterMode where
  | read
  | write
  deriving DecidableEq

/-- `REG_INPUT_NREGS`, `REG_HOLDING_NREGS`, `REG_COILS_SIZE` and `REG_DISCRETE_SIZE`. -/
structure RegSizes where
  inputNRegs : ℕ
  holdingNRegs : ℕ
  coilsSize : ℕ
  discreteSize : ℕ

structure Regs where
  usRegInputBuf : ℕ → U16
  usRegHoldingBuf : ℕ → U16
  ucRegCoilsBuf : ℕ → U8
  ucRegDiscreteBuf : ℕ → U8

/-- The sizes and the initial contents that `modbus.c` sets. -/
def regSizes : RegSizes := ⟨8, 8, 16, 16⟩

def Regs.start : Regs where
  usRegInputBuf i := [0x1000, 0x1001, 0x1002, 0x1003, 0x1004, 0x1005, 0x1006, 0x1007].getD i 0
  usRegHoldingBuf i := [0x147b, 0x3f8e, 0x147b, 0x400e, 0x1eb8, 0x4055, 0x147b, 0x408e].getD i 0
  ucRegCoilsBuf i := [0x01, 0x02].getD i 0
  ucRegDiscreteBuf i := [0x01, 0x02].getD i 0

/-- The word at byte `k` that both bit helpers work on. -/
def wordBuf (ucByteBuf : ℕ → U8) (k : ℕ) : U16 := be16 (ucByteBuf (k + 1)) (ucByteBuf k)

/-- `( 1 << ucNBits ) - 1`. -/
def bitMask (ucNBits : ℕ) : U16 := BitVec.ofNat 16 (2 ^ ucNBits - 1)

def xMBUtilSetBits (ucByteBuf : ℕ → U8) (usBitOffset : U16) (ucNBits : ℕ) (ucValue : U8) : ℕ → U8 :=
  let usByteOffset := usBitOffset.toNat / 8
  let usNPreBits := usBitOffset.toNat - usByteOffset * 8
  let usValue := ucValue.setWidth 16 <<< usNPreBits
  let usMask := bitMask ucNBits <<< usNPreBits
  let usWordBuf := (wordBuf ucByteBuf usByteOffset &&& ~~~usMask) ||| usValue
  let buf := Function.update ucByteBuf usByteOffset (loByte usWordBuf)
  Function.update buf (usByteOffset + 1) (hiByte usWordBuf)

def xMBUtilGetBits (ucByteBuf : ℕ → U8) (usBitOffset : U16) (ucNBits : ℕ) : U8 :=
  let usByteOffset := usBitOffset.toNat / 8
  let usNPreBits := usBitOffset.toNat - usByteOffset * 8
  (wordBuf ucByteBuf usByteOffset >>> usNPreBits &&& bitMask ucNBits).setWidth 8

/-- `usNRegs` registers from `iRegIndex` on, written to the frame high byte first. -/
def readRegs (tbl : ℕ → U16) (iRegIndex : ℕ) (buf : ℕ → U8) (pucRegBuffer : ℕ) : ℕ → ℕ → U8
  | 0 => buf
  | usNRegs + 1 =>
      let buf := Function.update buf pucRegBuffer (hiByte (tbl iRegIndex))
      let buf := Function.update buf (pucRegBuffer + 1) (loByte (tbl iRegIndex))
      readRegs tbl (iRegIndex + 1) buf (pucRegBuffer + 2) usNRegs

/-- `usNRegs` registers from `iRegIndex` on, taken from the frame high byte first. -/
def writeRegs (tbl : ℕ → U16) (iRegIndex : ℕ) (buf : ℕ → U8) (pucRegBuffer : ℕ) : ℕ → ℕ → U16
  | 0 => tbl
  | usNRegs + 1 =>
      let tbl := Function.update tbl iRegIndex (be16 (buf pucRegBuffer) (buf (pucRegBuffer + 1)))
      writeRegs tbl (iRegIndex + 1) buf (pucRegBuffer + 2) usNRegs

/-- The rounds of `while( iNCoils > 0 )`: the counter goes down by eight a round. -/
def bitRounds (usNCoils : U16) : ℕ := (usNCoils.toInt.toNat + 7) / 8

/-- `iNCoils > 8 ? 8 : iNCoils`. -/
def bitsLeft (iNCoils : ℕ) : ℕ := if iNCoils > 8 then 8 else iNCoils

/-- The read loop of the coil and discrete callbacks, one byte of the frame a round. -/
def readBits (tbl : ℕ → U8) (usBitOffset : U16) (iNCoils : ℕ) (buf : ℕ → U8) (pucRegBuffer : ℕ) :
    ℕ → ℕ → U8
  | 0 => buf
  | rounds + 1 =>
      let buf := Function.update buf pucRegBuffer (xMBUtilGetBits tbl usBitOffset (bitsLeft iNCoils))
      readBits tbl (usBitOffset + 8) (iNCoils - 8) buf (pucRegBuffer + 1) rounds

/-- The write loop of `eMBRegCoilsCB`; `usBitOffset` stays where it is. -/
def writeBits (tbl : ℕ → U8) (usBitOffset : U16) (iNCoils : ℕ) (buf : ℕ → U8) (pucRegBuffer : ℕ) :
    ℕ → ℕ → U8
  | 0 => tbl
  | rounds + 1 =>
      let tbl := xMBUtilSetBits tbl usBitOffset (bitsLeft iNCoils) (buf pucRegBuffer)
      writeBits tbl usBitOffset (iNCoils - 8) buf (pucRegBuffer + 1) rounds

/-- `pucRegBuffer` is the frame `buf` from cell `p` on. -/
def eMBRegInputCB (sz : RegSizes) (r : Regs) (buf : ℕ → U8) (p : ℕ) (usAddress usNRegs : U16) :
    EMBErrorCode × (ℕ → U8) :=
  if usAddress.toNat + usNRegs.toNat ≤ sz.inputNRegs then
    (.noErr, readRegs r.usRegInputBuf usAddress.toNat buf p usNRegs.toNat)
  else (.noReg, buf)

def eMBRegHoldingCB (sz : RegSizes) (r : Regs) (buf : ℕ → U8) (p : ℕ) (usAddress usNRegs : U16)
    (eMode : EMBRegisterMode) : EMBErrorCode × (ℕ → U8) × Regs :=
  let usAddress := usAddress - 1
  if usAddress.toNat + usNRegs.toNat ≤ sz.holdingNRegs then
    match eMode with
    | .read => (.noErr, readRegs r.usRegHoldingBuf usAddress.toNat buf p usNRegs.toNat, r)
    | .write =>
        let tbl := writeRegs r.usRegHoldingBuf usAddress.toNat buf p usNRegs.toNat
        (.noErr, buf, { r with usRegHoldingBuf := tbl })
  else (.noReg, buf, r)

def eMBRegCoilsCB (sz : RegSizes) (r : Regs) (buf : ℕ → U8) (p : ℕ) (usAddress usNCoils : U16)
    (eMode : EMBRegisterMode) : EMBErrorCode × (ℕ → U8) × Regs :=
  let iNCoils := usNCoils.toInt.toNat
  if 0 ≤ usAddress.toInt ∧ usAddress.toNat + usNCoils.toNat ≤ sz.coilsSize then
    match eMode with
    | .read => (.noErr, readBits r.ucRegCoilsBuf usAddress iNCoils buf p (bitRounds usNCoils), r)
    | .write =>
        let tbl := writeBits r.ucRegCoilsBuf usAddress iNCoils buf p (bitRounds usNCoils)
        (.noErr, buf, { r with ucRegCoilsBuf := tbl })
  else (.noReg, buf, r)

def eMBRegDiscreteCB (sz : RegSizes) (r : Regs) (buf : ℕ → U8) (p : ℕ) (usAddress usNDiscrete : U16) :
    EMBErrorCode × (ℕ → U8) :=
  let iNDiscrete := usNDiscrete.toInt.toNat
  if 0 ≤ usAddress.toInt ∧ usAddress.toNat + usNDiscrete.toNat ≤ sz.discreteSize then
    (.noErr, readBits r.ucRegDiscreteBuf usAddress iNDiscrete buf p (bitRounds usNDiscrete))
  else (.noReg, buf)

open Lib (Traced)

/-- The bit helpers, the loops and the bit callbacks once more, over a table that keeps
every index read or written. -/
def xMBUtilSetBitsTraced (ucByteBuf : Traced U8) (usBitOffset : U16) (ucNBits : ℕ) (ucValue : U8) :
    Traced U8 :=
  let usByteOffset := usBitOffset.toNat / 8
  let usNPreBits := usBitOffset.toNat - usByteOffset * 8
  let usValue := ucValue.setWidth 16 <<< usNPreBits
  let usMask := bitMask ucNBits <<< usNPreBits
  let lo := ucByteBuf.read usByteOffset
  let hi := lo.2.read (usByteOffset + 1)
  let usWordBuf := (be16 hi.1 lo.1 &&& ~~~usMask) ||| usValue
  (hi.2.write usByteOffset (loByte usWordBuf)).write (usByteOffset + 1) (hiByte usWordBuf)

def xMBUtilGetBitsTraced (ucByteBuf : Traced U8) (usBitOffset : U16) (ucNBits : ℕ) : U8 × Traced U8 :=
  let usByteOffset := usBitOffset.toNat / 8
  let usNPreBits := usBitOffset.toNat - usByteOffset * 8
  let lo := ucByteBuf.read usByteOffset
  let hi := lo.2.read (usByteOffset + 1)
  ((be16 hi.1 lo.1 >>> usNPreBits &&& bitMask ucNBits).setWidth 8, hi.2)

def readBitsTraced (tbl : Traced U8) (usBitOffset : U16) (iNCoils : ℕ) (buf : ℕ → U8)
    (pucRegBuffer : ℕ) : ℕ → (ℕ → U8) × Traced U8
  | 0 => (buf, tbl)
  | rounds + 1 =>
      let got := xMBUtilGetBitsTraced tbl usBitOffset (bitsLeft iNCoils)
      let buf := Function.update buf pucRegBuffer got.1
      readBitsTraced got.2 (usBitOffset + 8) (iNCoils - 8) buf (pucRegBuffer + 1) rounds

def writeBitsTraced (tbl : Traced U8) (usBitOffset : U16) (iNCoils : ℕ) (buf : ℕ → U8)
    (pucRegBuffer : ℕ) : ℕ → Traced U8
  | 0 => tbl
  | rounds + 1 =>
      let tbl := xMBUtilSetBitsTraced tbl usBitOffset (bitsLeft iNCoils) (buf pucRegBuffer)
      writeBitsTraced tbl usBitOffset (iNCoils - 8) buf (pucRegBuffer + 1) rounds

/-- The outcome of `eMBRegCoilsCB` and the bytes of `ucRegCoilsBuf` it touches. -/
def coilsCBTraced (sz : RegSizes) (r : Regs) (buf : ℕ → U8) (p : ℕ) (usAddress usNCoils : U16)
    (eMode : EMBRegisterMode) : (EMBErrorCode × (ℕ → U8) × Regs) × List ℕ :=
  let iNCoils := usNCoils.toInt.toNat
  let tbl := Traced.start r.ucRegCoilsBuf
  if 0 ≤ usAddress.toInt ∧ usAddress.toNat + usNCoils.toNat ≤ sz.coilsSize then
    match eMode with
    | .read =>
        let got := readBitsTraced tbl usAddress iNCoils buf p (bitRounds usNCoils)
        ((.noErr, got.1, r), got.2.touched)
    | .write =>
        let tbl := writeBitsTraced tbl usAddress iNCoils buf p (bitRounds usNCoils)
        ((.noErr, buf, { r with ucRegCoilsBuf := tbl.cells }), tbl.touched)
  else ((.noReg, buf, r), [])

/-- The outcome of `eMBRegDiscreteCB` and the bytes of `ucRegDiscreteBuf` it touches. -/
def discreteCBTraced (sz : RegSizes) (r : Regs) (buf : ℕ → U8) (p : ℕ)
    (usAddress usNDiscrete : U16) : (EMBErrorCode × (ℕ → U8)) × List ℕ :=
  let iNDiscrete := usNDiscrete.toInt.toNat
  let tbl := Traced.start r.ucRegDiscreteBuf
  if 0 ≤ usAddress.toInt ∧ usAddress.toNat + usNDiscrete.toNat ≤ sz.discreteSize then
    let got := readBitsTraced tbl usAddress iNDiscrete buf p (bitRounds usNDiscrete)
    ((.noErr, got.1), got.2.touched)
  else ((.noReg, buf), [])

end Stm32F407
