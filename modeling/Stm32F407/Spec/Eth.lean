import Stm32F407.Lib.Cells
import Stm32F407.Lib.Ring
import Stm32F407.Lib.Run
import Stm32F407.Spec.Word

/-! The Ethernet driver: descriptor rings, `low_level_output` beside the transmit
DMA, and the receive interrupt beside the receive DMA. A pointer to a descriptor
is its index in the table, a buffer address an index into the buffer memory. -/

namespace Stm32F407

open Lib

structure EthDmaDesc where
  status : U32
  controlBufferSize : U32
  buffer1Addr : ℕ
  buffer2NextDescAddr : ℕ

/-- `ETH_TX_BUF_SIZE` and `ETH_RX_BUF_SIZE`. -/
def ethMaxPacketSize : ℕ := 1524

/-- `ETH_DMATxDesc_OWN` and `ETH_DMARxDesc_OWN`. -/
def ownBit : U32 := 0x80000000

def EthDmaDesc.Own (d : EthDmaDesc) : Prop := d.status &&& ownBit ≠ 0

instance (d : EthDmaDesc) : Decidable d.Own := inferInstanceAs (Decidable (_ ≠ _))

/-- The loop of the two chain initialisations over the first `i` descriptors: `set`
fills status and control word, the addresses are the same in both. -/
def descChainInit (set : EthDmaDesc → EthDmaDesc) (count : ℕ) (tab : ℕ → EthDmaDesc) :
    ℕ → ℕ → EthDmaDesc
  | 0 => tab
  | i + 1 =>
      let tab := descChainInit set count tab i
      Function.update tab i { set (tab i) with
        buffer1Addr := i * ethMaxPacketSize
        buffer2NextDescAddr := if i < count - 1 then i + 1 else 0 }

def ethDMATxDescChainInit (tab : ℕ → EthDmaDesc) (txBuffCount : ℕ) : ℕ → EthDmaDesc :=
  descChainInit (fun d => { d with status := 0x00100000 }) txBuffCount tab txBuffCount

def ethDMARxDescChainInit (tab : ℕ → EthDmaDesc) (rxBuffCount : ℕ) : ℕ → EthDmaDesc :=
  descChainInit (fun d => { d with
    status := ownBit, controlBufferSize := 0x00004000 ||| BitVec.ofNat 32 ethMaxPacketSize })
    rxBuffCount tab rxBuffCount

def ethError : U8 := 0

def ethSuccess : U8 := 1

/-- Where a call of `low_level_output` stands: `l` bytes of the chain `p` are copied
to `buffer`, the pbufs `rest` are still to come. -/
inductive TxCall where
  | none
  | copying (p : List (List U8)) (buffer l : ℕ) (rest : List (List U8))
  deriving DecidableEq

def TxCall.more : TxCall → Bool
  | .copying _ _ _ (_ :: _) => true
  | _ => false

def TxCall.copied : TxCall → Bool
  | .copying _ _ _ [] => true
  | _ => false

/-- `dmaDesc` is the descriptor the DMA is at. `sent` and `accepted` record the frames
sent and the chains for which `low_level_output` returned `ERR_OK`. -/
structure EthTx where
  tab : ℕ → EthDmaDesc
  txBuff : ℕ → U8
  dmaTxDescToSet : ℕ
  dmaSr : U32
  call : TxCall
  dmaDesc : ℕ
  sent : List (List U8)
  accepted : List (List U8)

namespace EthTx

def frame (s : EthTx) (d : ℕ) : List U8 :=
  slice s.txBuff (s.tab d).buffer1Addr (s.tab d).controlBufferSize.toNat

def ethGetCurrentTxBuffer (s : EthTx) : ℕ := (s.tab s.dmaTxDescToSet).buffer1Addr

/-- A write to `DMASR` clears the bits written as one; `DMATPDR` makes the DMA poll again. -/
def ethTxPacket (s : EthTx) (frameLength : U16) : U8 × EthTx :=
  let d := s.tab s.dmaTxDescToSet
  if d.Own then (ethError, s)
  else
    let d := { d with controlBufferSize := frameLength.setWidth 32 &&& 0x1FFF }
    let d := { d with status := d.status ||| (0x20000000 ||| 0x10000000) }
    let d := { d with status := d.status ||| ownBit }
    let dmaSr := if s.dmaSr &&& 0x4 ≠ 0 then s.dmaSr &&& ~~~0x4 else s.dmaSr
    (ethSuccess, { s with
      tab := Function.update s.tab s.dmaTxDescToSet d
      dmaSr := dmaSr
      dmaTxDescToSet := d.buffer2NextDescAddr })

/-- `low_level_output` up to its loop. -/
def beginOutput (s : EthTx) (p : List (List U8)) : EthTx :=
  { s with call := .copying p s.ethGetCurrentTxBuffer 0 p }

def copyPbuf (s : EthTx) : EthTx :=
  match s.call with
  | .copying p buffer l (q :: rest) =>
      { s with txBuff := blit s.txBuff (buffer + l) q, call := .copying p buffer (l + q.length) rest }
  | _ => s

/-- Its end: `ERR_OK` unless `eth_tx_packet` fails. -/
def finishOutput (s : EthTx) : EthTx :=
  match s.call with
  | .copying p _ l _ =>
      let (res, s') := s.ethTxPacket (BitVec.ofNat 16 l)
      if res = ethError then { s' with call := .none }
      else { s' with call := .none, accepted := s.accepted ++ [p.flatten] }
  | .none => s

/-- The transmit DMA at its current descriptor. -/
def dmaStep (s : EthTx) : EthTx :=
  let d := s.tab s.dmaDesc
  if d.Own then
    { s with
      tab := Function.update s.tab s.dmaDesc { d with status := d.status &&& ~~~ownBit }
      sent := s.sent ++ [s.frame s.dmaDesc]
      dmaDesc := d.buffer2NextDescAddr }
  else { s with dmaSr := s.dmaSr ||| 0x4 }

/-- The frames in the buffers of the DMA, from its current descriptor on. -/
def inFlight (n : ℕ) (s : EthTx) : List (List U8) :=
  walk (fun d => (s.tab d).buffer2NextDescAddr) (fun d => (s.tab d).Own) s.frame n s.dmaDesc

/-- After `ETH_DMATxDescChainInit`; memory and the other fields hold anything. -/
def start (n : ℕ) (tab : ℕ → EthDmaDesc) (txBuff : ℕ → U8) (dmaSr : U32) : EthTx where
  tab := ethDMATxDescChainInit tab n
  txBuff := txBuff
  dmaTxDescToSet := 0
  dmaSr := dmaSr
  call := .none
  dmaDesc := 0
  sent := []
  accepted := []

end EthTx

inductive TxEvent where
  | output (p : List (List U8))
  | copy
  | finish
  | dma
  deriving DecidableEq

namespace EthTx

/-- A call runs to its end before the next; the chain fits into a buffer. -/
def Ready (s : EthTx) : TxEvent → Prop
  | .output p => s.call = .none ∧ p.flatten.length ≤ ethMaxPacketSize
  | .copy => s.call.more = true
  | .finish => s.call.copied = true
  | .dma => True

instance (s : EthTx) : (e : TxEvent) → Decidable (s.Ready e)
  | .output p => inferInstanceAs (Decidable (s.call = .none ∧ p.flatten.length ≤ ethMaxPacketSize))
  | .copy => inferInstanceAs (Decidable (s.call.more = true))
  | .finish => inferInstanceAs (Decidable (s.call.copied = true))
  | .dma => inferInstanceAs (Decidable True)

def next (s : EthTx) : TxEvent → EthTx
  | .output p => s.beginOutput p
  | .copy => s.copyPbuf
  | .finish => s.finishOutput
  | .dma => s.dmaStep

end EthTx

def TxStep (s : EthTx) (e : TxEvent) (s' : EthTx) : Prop := s.Ready e ∧ s' = s.next e

/-- The field `FL` of a receive descriptor. -/
def rxFrameLength (status : U32) : U32 := (status &&& 0x3FFF0000) >>> 16

def ethGetRxPktSize (d : EthDmaDesc) : U32 :=
  if ¬d.Own ∧ d.status &&& 0x8000 = 0 ∧ d.status &&& 0x100 ≠ 0 then rxFrameLength d.status else 0

/-- `descriptor` is `none` for the null pointer. -/
structure FrameTypeDef where
  length : U32
  buffer : ℕ
  descriptor : Option ℕ
  deriving DecidableEq

/-- Where the interrupt handler stands. `handling` is `low_level_input` after
`pbuf_alloc`: `p` holds the bytes copied so far, `rest` the `len` of the pbufs still to
fill, and `l` bytes are copied. `fault` is a write through a null descriptor. -/
inductive RxPc where
  | test
  | packet
  | alloc (frame : FrameTypeDef)
  | handling (frame : FrameTypeDef) (p : Option (List (List U8))) (rest : List ℕ) (l : ℕ)
  | input (p : Option (List (List U8)))
  | fault
  deriving DecidableEq

/-- `received` records each frame with the descriptor it was put into, `allocs` for each
`pbuf_alloc` whether it gave a chain, `inputs` what `netif->input` was passed and
`returned` the descriptors given back. -/
structure EthRx where
  tab : ℕ → EthDmaDesc
  rxBuff : ℕ → U8
  dmaRxDescToGet : ℕ
  dmaSr : U32
  pc : RxPc
  dmaDesc : ℕ
  received : List (ℕ × List U8)
  allocs : List Bool
  inputs : List (List U8)
  returned : List ℕ

namespace EthRx

def stored (s : EthRx) (d : ℕ) : List U8 :=
  slice s.rxBuff (s.tab d).buffer1Addr (rxFrameLength (s.tab d).status).toNat

/-- Reset of the RBUS bit if it is set. -/
def resetRbus (dmaSr : U32) : U32 := if dmaSr &&& 0x80 ≠ 0 then dmaSr &&& ~~~0x80 else dmaSr

def ethRxPacket (s : EthRx) : FrameTypeDef × EthRx :=
  let d := s.tab s.dmaRxDescToGet
  if d.Own then (⟨0, 0, none⟩, { s with dmaSr := resetRbus s.dmaSr })
  else
    let frame : FrameTypeDef :=
      if d.status &&& 0x8000 = 0 ∧ d.status &&& 0x100 ≠ 0 ∧ d.status &&& 0x200 ≠ 0 then
        ⟨rxFrameLength d.status - 4, d.buffer1Addr, some s.dmaRxDescToGet⟩
      else ⟨0, 0, some s.dmaRxDescToGet⟩
    (frame, { s with dmaRxDescToGet := d.buffer2NextDescAddr })

/-- The end of `low_level_input`: the descriptor goes back to the DMA. -/
def giveBack (s : EthRx) (frame : FrameTypeDef) (p : Option (List (List U8))) : EthRx :=
  match frame.descriptor with
  | some d =>
      { s with
        tab := Function.update s.tab d { s.tab d with status := ownBit }
        dmaSr := resetRbus s.dmaSr
        returned := s.returned ++ [d]
        pc := .input p }
  | none => { s with pc := .fault }

/-- The next step of the handler, up to and after `pbuf_alloc`. -/
def cpuStep (s : EthRx) : EthRx :=
  match s.pc with
  | .test => if ethGetRxPktSize (s.tab s.dmaRxDescToGet) ≠ 0 then { s with pc := .packet } else s
  | .packet =>
      let (frame, s) := s.ethRxPacket
      { s with pc := .alloc frame }
  | .alloc _ => s
  | .handling frame p [] _ => s.giveBack frame p
  | .handling frame p (len :: rest) l =>
      let p := p.map fun p => p ++ [slice s.rxBuff (frame.buffer + l) len]
      { s with pc := .handling frame p rest (l + len) }
  | .input (some p) => { s with inputs := s.inputs ++ [p.flatten], pc := .test }
  | .input none => { s with pc := .test }
  | .fault => s

/-- `pbuf_alloc( PBUF_RAW, len, PBUF_POOL )` returns the chain `lens`, or NULL. -/
def pbufAlloc (s : EthRx) (lens : Option (List ℕ)) : EthRx :=
  match s.pc with
  | .alloc frame => { s with
      allocs := s.allocs ++ [lens.isSome]
      pc := .handling frame (lens.map fun _ => []) (lens.getD []) 0 }
  | _ => s

/-- The receive DMA has a frame for its current descriptor and writes back `status`. -/
def dmaStep (s : EthRx) (frame : List U8) (status : U32) : EthRx :=
  let d := s.tab s.dmaDesc
  if d.Own then
    { s with
      tab := Function.update s.tab s.dmaDesc { d with status := status }
      rxBuff := blit s.rxBuff d.buffer1Addr frame
      dmaDesc := d.buffer2NextDescAddr
      received := s.received ++ [(s.dmaDesc, frame)] }
  else { s with dmaSr := s.dmaSr ||| 0x80 }

/-- After `ETH_DMARxDescChainInit`; memory and the other fields hold anything. -/
def start (n : ℕ) (tab : ℕ → EthDmaDesc) (rxBuff : ℕ → U8) (dmaSr : U32) : EthRx where
  tab := ethDMARxDescChainInit tab n
  rxBuff := rxBuff
  dmaRxDescToGet := 0
  dmaSr := dmaSr
  pc := .test
  dmaDesc := 0
  received := []
  allocs := []
  inputs := []
  returned := []

end EthRx

/-- The status of an error-free frame of `len` bytes in one descriptor. -/
def GoodStatus (status : U32) (len : ℕ) : Prop :=
  status &&& ownBit = 0 ∧ status &&& 0x8000 = 0 ∧ status &&& 0x100 ≠ 0 ∧ status &&& 0x200 ≠ 0 ∧
    (rxFrameLength status).toNat = len ∧ 64 ≤ len ∧ len ≤ ethMaxPacketSize

instance (status : U32) (len : ℕ) : Decidable (GoodStatus status len) :=
  inferInstanceAs (Decidable (_ ∧ _))

inductive RxEvent where
  | dma (frame : List U8) (status : U32)
  | cpu
  | alloc (lens : Option (List ℕ))
  deriving DecidableEq

namespace EthRx

/-- What `pbuf_alloc` may return here: NULL, or a chain whose lengths sum to the `u16_t`
length asked for. -/
def MayAlloc (lens : Option (List ℕ)) : RxPc → Prop
  | .alloc frame => ∀ l ∈ lens, l.sum = (frame.length.setWidth 16).toNat
  | _ => False

instance (lens : Option (List ℕ)) : (pc : RxPc) → Decidable (MayAlloc lens pc)
  | .alloc frame => inferInstanceAs (Decidable (∀ l ∈ lens, l.sum = (frame.length.setWidth 16).toNat))
  | .test | .packet | .handling .. | .input _ | .fault => inferInstanceAs (Decidable False)

def Ready (s : EthRx) : RxEvent → Prop
  | .dma frame status => GoodStatus status frame.length
  | .cpu => True
  | .alloc lens => MayAlloc lens s.pc

instance (s : EthRx) : (e : RxEvent) → Decidable (s.Ready e)
  | .dma frame status => inferInstanceAs (Decidable (GoodStatus status frame.length))
  | .cpu => inferInstanceAs (Decidable True)
  | .alloc lens => inferInstanceAs (Decidable (MayAlloc lens s.pc))

def next (s : EthRx) : RxEvent → EthRx
  | .dma frame status => s.dmaStep frame status
  | .cpu => s.cpuStep
  | .alloc lens => s.pbufAlloc lens

end EthRx

def RxStep (s : EthRx) (e : RxEvent) (s' : EthRx) : Prop := s.Ready e ∧ s' = s.next e

end Stm32F407
