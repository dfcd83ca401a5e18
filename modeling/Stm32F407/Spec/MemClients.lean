import Stm32F407.Spec.Malloc

/-! The clients of the SRAM_IN bank: the Ethernet driver of `eth.c`, the lwIP
start-up code of `lwip_comm.c` and any other client. Their calls go through
`my_malloc` and `my_free`; beside the bank the model keeps who holds which
allocation and a log of the calls, which the code does not record. -/

namespace Stm32F407

open Lib

/-- A bank with the address its `membase` has in the 32-bit address space. -/
structure Sram extends Bank where
  membase : U32
  base_ne : membase ≠ 0
  fits : membase.toNat + memsize ≤ 2 ^ 32
  tbl_lt : memtblsize < 2 ^ 30

def myMalloc (m : Sram) (s : BankState) (size : U32) : U32 × BankState :=
  let r := myMemMalloc m.toBank s size
  if r.1 = 0xFFFFFFFF then (0, r.2) else (m.membase + r.1, r.2)

def myFree (m : Sram) (s : BankState) (ptr : U32) : BankState :=
  if ptr = 0 then s else (myMemFree m.toBank s (ptr - m.membase)).2

inductive Owner where
  | eth
  | lwip
  | client
  deriving DecidableEq

/-- An allocation that `my_malloc` handed to `owner` and `owner` has not released. -/
structure Held where
  owner : Owner
  ptr : U32
  size : U32
  deriving DecidableEq

def Held.alloc (m : Sram) (h : Held) : Alloc := ⟨h.ptr - m.membase, h.size⟩

def Held.block (m : Sram) (h : Held) : Block := (h.alloc m).block m.toBank

/-- One call of `my_malloc` or `my_free`: who made it, the table before and after,
and what was held when it was made. -/
structure Call where
  owner : Owner
  before : ℕ → U32
  after : ℕ → U32
  held : List Held

/-- Every cell the call clears lies in an allocation its caller holds. -/
def Call.Owns (m : Sram) (c : Call) : Prop :=
  ∀ j, c.before j ≠ 0 → c.after j = 0 → ∃ a ∈ c.held, a.owner = c.owner ∧ j ∈ a.block m

structure World where
  bank : BankState
  held : List Held
  log : List Call

def World.malloc (m : Sram) (o : Owner) (w : World) (size : U32) : U32 × World :=
  let r := myMalloc m w.bank size
  let held := if r.1 = 0 then w.held else ⟨o, r.1, size⟩ :: w.held
  (r.1, ⟨r.2, held, w.log ++ [⟨o, w.bank.memmap, r.2.memmap, w.held⟩]⟩)

/-- Whose allocation `my_free(ptr)` by `o` is meant to release. -/
def Held.isAt (o : Owner) (ptr : U32) (a : Held) : Bool := a.owner = o ∧ a.ptr = ptr

def World.free (m : Sram) (o : Owner) (w : World) (ptr : U32) : World :=
  let s := myFree m w.bank ptr
  ⟨s, w.held.eraseP (Held.isAt o ptr), w.log ++ [⟨o, w.bank.memmap, s.memmap, w.held⟩]⟩

def ethRxBufNb : U32 := 5
def ethTxBufNb : U32 := 5
def ethRxBufSize : U32 := 1524
def ethTxBufSize : U32 := 1524

/-- Eight words: `USE_ENHANCED_DMA_DESCRIPTORS` is defined. -/
def sizeofDmaDesc : U32 := 32

structure EthMem where
  pgDmaRxDscrTab : U32
  pgDmaTxDscrTab : U32
  pgRxBuff : U32
  pgTxBuff : U32
  deriving DecidableEq

def EthMem.ptrs (g : EthMem) : List U32 :=
  [g.pgDmaRxDscrTab, g.pgDmaTxDscrTab, g.pgRxBuff, g.pgTxBuff]

/-- `my_eth_mem_free`; the four globals keep their values. -/
def myEthMemFree (m : Sram) (g : EthMem) (w : World) : World :=
  let w := w.free m .eth g.pgDmaRxDscrTab
  let w := w.free m .eth g.pgDmaTxDscrTab
  let w := w.free m .eth g.pgRxBuff
  w.free m .eth g.pgTxBuff

def myEthMemMalloc (m : Sram) (g : EthMem) (w : World) : U8 × EthMem × World :=
  if g.pgDmaRxDscrTab = 0 ∧ g.pgDmaTxDscrTab = 0 ∧ g.pgRxBuff = 0 ∧ g.pgTxBuff = 0 then
    let (rxTab, w) := w.malloc m .eth (ethRxBufNb * sizeofDmaDesc)
    let (txTab, w) := w.malloc m .eth (ethTxBufNb * sizeofDmaDesc)
    let (rxBuff, w) := w.malloc m .eth (ethRxBufSize * ethRxBufNb)
    let (txBuff, w) := w.malloc m .eth (ethTxBufSize * ethTxBufNb)
    let g : EthMem := ⟨rxTab, txTab, rxBuff, txBuff⟩
    if rxTab = 0 ∨ txTab = 0 ∨ rxBuff = 0 ∨ txBuff = 0 then (1, g, myEthMemFree m g w)
    else (0, g, w)
  else (1, g, myEthMemFree m g w)

/-- `LWIP_MEM_ALIGN_SIZE` for `MEM_ALIGNMENT` 4. -/
def lwipMemAlignSize (size : U32) : U32 := (size + 4 - 1) &&& ~~~(4 - 1)

/-- `ramheapsize` for `MEM_SIZE` 10240. -/
def ramHeapSize : U32 := lwipMemAlignSize 10240 + 2 * lwipMemAlignSize (4 * 3) + 4

structure LwipMem where
  pgMempMemory : U32
  pgRamHeap : U32
  deriving DecidableEq

def LwipMem.ptrs (g : LwipMem) : List U32 := [g.pgMempMemory, g.pgRamHeap]

def lwipCommMemFree (m : Sram) (g : LwipMem) (w : World) : World :=
  let w := w.free m .lwip g.pgMempMemory
  w.free m .lwip g.pgRamHeap

/-- `lwip_comm_mem_malloc`, where `memp_get_memorysize` returned `mempsize`. -/
def lwipCommMemMalloc (m : Sram) (mempsize : U32) (w : World) : U8 × LwipMem × World :=
  let (memp, w) := w.malloc m .lwip mempsize
  let (heap, w) := w.malloc m .lwip ramHeapSize
  let g : LwipMem := ⟨memp, heap⟩
  if memp = 0 ∨ heap = 0 then (1, g, lwipCommMemFree m g w) else (0, g, w)

structure MemSystem where
  world : World
  eth : EthMem
  lwip : LwipMem

inductive MemEvent where
  | ethMalloc
  | ethFree
  | lwipMalloc (mempsize : U32)
  | lwipFree
  | clientMalloc (size : U32)
  | clientFree (ptr : U32)

/-- One call by one component. The other client frees only what it holds. -/
inductive MemStep (m : Sram) : MemSystem → MemEvent → MemSystem → Prop
  | ethMalloc (s : MemSystem) :
      MemStep m s .ethMalloc
        ⟨(myEthMemMalloc m s.eth s.world).2.2, (myEthMemMalloc m s.eth s.world).2.1, s.lwip⟩
  | ethFree (s : MemSystem) :
      MemStep m s .ethFree ⟨myEthMemFree m s.eth s.world, s.eth, s.lwip⟩
  | lwipMalloc (s : MemSystem) (n : U32) :
      MemStep m s (.lwipMalloc n)
        ⟨(lwipCommMemMalloc m n s.world).2.2, s.eth, (lwipCommMemMalloc m n s.world).2.1⟩
  | lwipFree (s : MemSystem) :
      MemStep m s .lwipFree ⟨lwipCommMemFree m s.lwip s.world, s.eth, s.lwip⟩
  | clientMalloc (s : MemSystem) (n : U32) :
      MemStep m s (.clientMalloc n) ⟨(s.world.malloc m .client n).2, s.eth, s.lwip⟩
  | clientFree (s : MemSystem) (a : Held) (ha : a ∈ s.world.held) (ho : a.owner = .client) :
      MemStep m s (.clientFree a.ptr) ⟨s.world.free m .client a.ptr, s.eth, s.lwip⟩

/-- Power-up: static data is zero. -/
def MemSystem.start : MemSystem := ⟨⟨⟨fun _ => 0, 0⟩, [], []⟩, ⟨0, 0, 0, 0⟩, ⟨0, 0⟩⟩

/-- Every pointer of `ptrs` that is set but that `o` has released already still
points at a free block. -/
def Releasable (m : Sram) (o : Owner) (w : World) (ptrs : List U32) : Prop :=
  ∀ p ∈ ptrs, p ≠ 0 → (∀ a ∈ w.held, a.owner = o → a.ptr ≠ p) →
    w.bank.memmap ((p - m.membase).toNat / m.memblksize) = 0

/-- No driver is about to release, through a stale global, a block that has been
handed out again. -/
def MemSafe (m : Sram) (s : MemSystem) : MemEvent → Prop
  | .ethMalloc | .ethFree => Releasable m .eth s.world s.eth.ptrs
  | .lwipFree => Releasable m .lwip s.world s.lwip.ptrs
  | _ => True

def sramIn : Sram := ⟨mem1, 0x20000000, by decide, by decide, by decide⟩

end Stm32F407
