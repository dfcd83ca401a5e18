import Stm32F407.Lib.Poll
import Stm32F407.Spec.Word

/-! The two CAN send functions of `can.c` over `CAN_Transmit` and
`CAN_TransmitStatus`. The transmit status register is what it shows at each read:
a stream of words, since the hardware changes it at any time. -/

namespace Stm32F407

open Lib

structure CanTxMsg where
  stdId : U32
  extId : U32
  ide : U8
  rtr : U8
  dlc : U8
  data : ℕ → U8

structure CanTxMailBox where
  tir : U32
  tdtr : U32
  tdlr : U32
  tdhr : U32

def canTxStatusFailed : U8 := 0

def canTxStatusOk : U8 := 1

def canTxStatusPending : U8 := 2

def canTxStatusNoMailBox : U8 := 4

/-- `CAN_TSR_RQCPx`, `CAN_TSR_TXOKx` and `CAN_TSR_TMEx`. -/
structure CanTsrBits where
  rqcp : U32
  txok : U32
  tme : U32

def canTsr0 : CanTsrBits := ⟨0x00000001, 0x00000002, 0x04000000⟩

def canTsr1 : CanTsrBits := ⟨0x00000100, 0x00000200, 0x08000000⟩

def canTsr2 : CanTsrBits := ⟨0x00010000, 0x00020000, 0x10000000⟩

/-- Four bytes of `Data` as `CAN_Transmit` puts them into a data register. -/
def canDataWord (data : ℕ → U8) (i : ℕ) : U32 :=
  (data (i + 3)).setWidth 32 <<< 24 ||| (data (i + 2)).setWidth 32 <<< 16 |||
    (data (i + 1)).setWidth 32 <<< 8 ||| (data i).setWidth 32

/-- What `CAN_Transmit` writes to the mailbox it has selected. -/
def canFillMailBox (box : CanTxMailBox) (txMessage : CanTxMsg) : CanTxMailBox :=
  let tir := box.tir &&& 1
  let tir :=
    if txMessage.ide = 0 then tir ||| (txMessage.stdId <<< 21 ||| txMessage.rtr.setWidth 32)
    else tir ||| (txMessage.extId <<< 3 ||| txMessage.ide.setWidth 32 ||| txMessage.rtr.setWidth 32)
  let dlc := txMessage.dlc &&& 0x0F
  { tir := tir ||| 1
    tdtr := (box.tdtr &&& 0xFFFFFFF0) ||| dlc.setWidth 32
    tdlr := canDataWord txMessage.data 0
    tdhr := canDataWord txMessage.data 4 }

/-- The mailbox that `CAN_Transmit` selects, and the reads of the register it takes. -/
def canSelectMailBox (tsr : ℕ → U32) : U8 × ℕ :=
  if tsr 0 &&& canTsr0.tme = canTsr0.tme then (0, 1)
  else if tsr 1 &&& canTsr1.tme = canTsr1.tme then (1, 2)
  else if tsr 2 &&& canTsr2.tme = canTsr2.tme then (2, 3)
  else (canTxStatusNoMailBox, 3)

/-- `CAN_Transmit`, with the number of its reads of the register. -/
def canTransmit (tsr : ℕ → U32) (sTxMailBox : ℕ → CanTxMailBox) (txMessage : CanTxMsg) :
    U8 × (ℕ → CanTxMailBox) × ℕ :=
  let (transmitMailbox, reads) := canSelectMailBox tsr
  if transmitMailbox ≠ canTxStatusNoMailBox then
    let box := canFillMailBox (sTxMailBox transmitMailbox.toNat) txMessage
    (transmitMailbox, Function.update sTxMailBox transmitMailbox.toNat box, reads)
  else (transmitMailbox, sTxMailBox, reads)

/-- `CAN_TransmitStatus`. A mailbox number above 2 leaves `CAN_TxStatus_Failed`, which is 0,
in `state`, and the second switch takes 0 for a pending transmission. -/
def canTransmitStatus (tsr : U32) (transmitMailbox : U8) : U8 :=
  let state : U32 :=
    if transmitMailbox = 0 then tsr &&& (canTsr0.rqcp ||| canTsr0.txok ||| canTsr0.tme)
    else if transmitMailbox = 1 then tsr &&& (canTsr1.rqcp ||| canTsr1.txok ||| canTsr1.tme)
    else if transmitMailbox = 2 then tsr &&& (canTsr2.rqcp ||| canTsr2.txok ||| canTsr2.tme)
    else canTxStatusFailed.setWidth 32
  if state = 0 then canTxStatusPending
  else if state = canTsr0.rqcp ||| canTsr0.tme then canTxStatusFailed
  else if state = canTsr1.rqcp ||| canTsr1.tme then canTxStatusFailed
  else if state = canTsr2.rqcp ||| canTsr2.tme then canTxStatusFailed
  else if state = canTsr0.rqcp ||| canTsr0.txok ||| canTsr0.tme then canTxStatusOk
  else if state = canTsr1.rqcp ||| canTsr1.txok ||| canTsr1.tme then canTxStatusOk
  else if state = canTsr2.rqcp ||| canTsr2.txok ||| canTsr2.tme then canTxStatusOk
  else canTxStatusFailed

/-- `for(i=0; i<len; i++) tx_msg.Data[i] = msg[i];` -/
def copyMsg (data msg : ℕ → U8) : ℕ → ℕ → U8
  | 0 => data
  | i + 1 => Function.update (copyMsg data msg i) i (msg i)

/-- A call of a send function: what it returned, the mailbox it was given, the mailboxes
after it and the statuses it has polled. -/
structure CanSend where
  ret : U8
  mbox : U8
  sTxMailBox : ℕ → CanTxMailBox
  polled : List U8

/-- Both send functions, `id` being their identifier. `data` is what `tx_msg.Data` held
before; the counter `i` ends the polling after 0xFFF failed statuses. -/
def canSendData (id : U32) (tsr : ℕ → U32) (sTxMailBox : ℕ → CanTxMailBox) (data msg : ℕ → U8)
    (len : U8) : CanSend :=
  let txMsg : CanTxMsg := ⟨id, id, 0, 0, len, copyMsg data msg len.toNat⟩
  let (mbox, sTxMailBox, reads) := canTransmit tsr sTxMailBox txMsg
  let status (k : ℕ) := canTransmitStatus (tsr (reads + k)) mbox
  let (polled, timeout) := poll (· = canTxStatusFailed) status 0xFFF
  ⟨if timeout then 1 else 0, mbox, sTxMailBox, polled⟩

def can1SendData := canSendData 0x12

def can2SendData := canSendData 0x22

end Stm32F407
