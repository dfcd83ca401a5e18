import Stm32F407.Spec.Eth

/-! Two calls of the Ethernet driver on their own: `eth_tx_packet` write by write
beside the transmit DMA, and `ETH_IRQHandler` as one call while the receive DMA is
idle. -/

namespace Stm32F407

open Lib

/-- `ETH_DMATxDesc_LS` and `ETH_DMATxDesc_FS` are both set. -/
def EthDmaDesc.OneSegment (d : EthDmaDesc) : Prop :=
  d.status &&& 0x20000000 ≠ 0 ∧ d.status &&& 0x10000000 ≠ 0

namespace EthTx

def setDesc (s : EthTx) (d : EthDmaDesc) : EthTx :=
  { s with tab := Function.update s.tab s.dmaTxDescToSet d }

/-- The writes of `eth_tx_packet` in their order. -/
def setSize (s : EthTx) (frameLength : U16) : EthTx :=
  let d := s.tab s.dmaTxDescToSet
  s.setDesc { d with controlBufferSize := frameLength.setWidth 32 &&& 0x1FFF }

def setSegments (s : EthTx) : EthTx :=
  let d := s.tab s.dmaTxDescToSet
  s.setDesc { d with status := d.status ||| (0x20000000 ||| 0x10000000) }

def setOwn (s : EthTx) : EthTx :=
  let d := s.tab s.dmaTxDescToSet
  s.setDesc { d with status := d.status ||| ownBit }

/-- The reset of TBUS, and the step to the next descriptor. -/
def toNextDesc (s : EthTx) : EthTx :=
  { s with
    dmaSr := if s.dmaSr &&& 0x4 ≠ 0 then s.dmaSr &&& ~~~0x4 else s.dmaSr
    dmaTxDescToSet := (s.tab s.dmaTxDescToSet).buffer2NextDescAddr }

end EthTx

/-- The last write of a call of `eth_tx_packet`. -/
inductive TxPacketPc where
  | idle
  | sized (frameLength : U16)
  | segments (frameLength : U16)
  | handed
  deriving DecidableEq

/-- `submitted` records each `FrameLength` modulo 8192 with the descriptor it was handed
over in, `completed` each descriptor the DMA is done with and its size. -/
structure TxPacketRing where
  eth : EthTx
  pc : TxPacketPc
  submitted : List (ℕ × ℕ)
  completed : List (ℕ × ℕ)

/-- `packet` is the call up to its first write, or all of a call that fails. -/
inductive TxPacketEvent where
  | packet (frameLength : U16)
  | write
  | dma
  deriving DecidableEq

namespace TxPacketRing

def start (n : ℕ) (tab : ℕ → EthDmaDesc) (txBuff : ℕ → U8) (dmaSr : U32) : TxPacketRing :=
  ⟨EthTx.start n tab txBuff dmaSr, .idle, [], []⟩

def packet (s : TxPacketRing) (frameLength : U16) : TxPacketRing :=
  if (s.eth.tab s.eth.dmaTxDescToSet).Own then s
  else { s with eth := s.eth.setSize frameLength, pc := .sized frameLength }

def write (s : TxPacketRing) : TxPacketRing :=
  match s.pc with
  | .idle => s
  | .sized frameLength => { s with eth := s.eth.setSegments, pc := .segments frameLength }
  | .segments frameLength => { s with
      eth := s.eth.setOwn
      pc := .handed
      submitted := s.submitted ++ [(s.eth.dmaTxDescToSet, frameLength.toNat % 8192)] }
  | .handed => { s with eth := s.eth.toNextDesc, pc := .idle }

def dma (s : TxPacketRing) : TxPacketRing :=
  let d := s.eth.tab s.eth.dmaDesc
  { s with
    eth := s.eth.dmaStep
    completed := if d.Own then s.completed ++ [(s.eth.dmaDesc, d.controlBufferSize.toNat)]
      else s.completed }

/-- A call begins after the end of the one before. -/
def Ready (s : TxPacketRing) : TxPacketEvent → Prop
  | .packet _ => s.pc = .idle
  | .write => s.pc ≠ .idle
  | .dma => True

instance (s : TxPacketRing) : (e : TxPacketEvent) → Decidable (s.Ready e)
  | .packet _ => inferInstanceAs (Decidable (s.pc = .idle))
  | .write => inferInstanceAs (Decidable (s.pc ≠ .idle))
  | .dma => inferInstanceAs (Decidable True)

def next (s : TxPacketRing) : TxPacketEvent → TxPacketRing
  | .packet frameLength => s.packet frameLength
  | .write => s.write
  | .dma => s.dma

end TxPacketRing

def TxPacketStep (s : TxPacketRing) (e : TxPacketEvent) (s' : TxPacketRing) : Prop :=
  s.Ready e ∧ s' = s.next e

namespace EthRx

/-- The copy loop of `low_level_input` from byte `l` on, over pbufs of the lengths given. -/
def copyPbufs (rxBuff : ℕ → U8) (buffer : ℕ) : ℕ → List ℕ → List (List U8)
  | _, [] => []
  | l, len :: lens => slice rxBuff (buffer + l) len :: copyPbufs rxBuff buffer (l + len) lens

/-- `lwip_pkt_handle`: `low_level_input`, where `pbuf_alloc` returns the chain `lens` or
NULL, and `netif->input` on its result. -/
def lwipPktHandle (s : EthRx) (lens : Option (List ℕ)) : EthRx :=
  let (frame, s) := s.ethRxPacket
  let p := lens.map (copyPbufs s.rxBuff frame.buffer 0)
  let s := { s with allocs := s.allocs ++ [lens.isSome] }
  (s.giveBack frame p).cpuStep

/-- `ETH_IRQHandler`, with at most as many rounds of its loop as the argument says;
`allocs` are the results of `pbuf_alloc`. -/
def ethIRQHandler (allocs : ℕ → Option (List ℕ)) : ℕ → EthRx → Option EthRx
  | 0, s => if ethGetRxPktSize (s.tab s.dmaRxDescToGet) ≠ 0 then none else some s
  | rounds + 1, s =>
      if ethGetRxPktSize (s.tab s.dmaRxDescToGet) ≠ 0 then
        ethIRQHandler (fun i => allocs (i + 1)) rounds (s.lwipPktHandle (allocs 0))
      else some s

end EthRx

end Stm32F407
