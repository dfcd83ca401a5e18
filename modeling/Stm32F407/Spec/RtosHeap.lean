import Stm32F407.Spec.Word
import Stm32F407.Lib.Tiling

/-! The heap of the kernel, `heap_4.c`: a list of the free blocks in the order of their
addresses, first fit, and free neighbours joined. The functions run with the scheduler
suspended, so each is one step; between them the tasks write into the memory they own. -/

namespace Stm32F407

open Lib

structure BlockLink where
  pxNextFreeBlock : U32
  xBlockSize : U32
  deriving DecidableEq

def configTOTAL_HEAP_SIZE : U32 := 26 * 1024

def portBYTE_ALIGNMENT : U32 := 8

def portBYTE_ALIGNMENT_MASK : U32 := 7

def heapSIZE_MAX : U32 := 0xFFFFFFFF

/-- `sizeof( BlockLink_t )` is 8. -/
def xHeapStructSize : U32 := (8 + (portBYTE_ALIGNMENT - 1)) &&& ~~~portBYTE_ALIGNMENT_MASK

def heapMINIMUM_BLOCK_SIZE : U32 := xHeapStructSize <<< 1

def heapBLOCK_ALLOCATED_BITMASK : U32 := 0x80000000

def heapADD_WILL_OVERFLOW (a b : U32) : Bool := heapSIZE_MAX - b < a

def heapBLOCK_SIZE_IS_VALID (xBlockSize : U32) : Bool := xBlockSize &&& heapBLOCK_ALLOCATED_BITMASK = 0

/-- The addresses of `ucHeap` and `xStart`: the array ends below 2^32, and the list head
lies outside of it. -/
structure HeapPlace where
  ucHeap : U32
  xStart : U32
  pos : 0 < ucHeap.toNat
  inside : ucHeap.toNat + configTOTAL_HEAP_SIZE.toNat < 2 ^ 32
  outside : Block.Apart ⟨xStart.toNat, 8⟩ ⟨ucHeap.toNat, configTOTAL_HEAP_SIZE.toNat⟩

/-- The variables of `heap_4.c`, and the memory as headers at their addresses. -/
structure PortHeap where
  mem : U32 → BlockLink
  pxEnd : U32
  xFreeBytesRemaining : U32
  xMinimumEverFreeBytesRemaining : U32
  xNumberOfSuccessfulAllocations : U32
  xNumberOfSuccessfulFrees : U32

structure HeapStats where
  xAvailableHeapSpaceInBytes : U32
  xSizeOfLargestFreeBlockInBytes : U32
  xSizeOfSmallestFreeBlockInBytes : U32
  xNumberOfFreeBlocks : U32
  xMinimumEverFreeBytesRemaining : U32
  xNumberOfSuccessfulAllocations : U32
  xNumberOfSuccessfulFrees : U32
  deriving DecidableEq

/-- No more blocks than this fit, so the loops over the free list take fewer rounds. -/
def heapRounds : ℕ := 3328

namespace PortHeap

def setNext (h : PortHeap) (pxBlock pxNext : U32) : PortHeap :=
  { h with mem := Function.update h.mem pxBlock { h.mem pxBlock with pxNextFreeBlock := pxNext } }

def setSize (h : PortHeap) (pxBlock xSize : U32) : PortHeap :=
  { h with mem := Function.update h.mem pxBlock { h.mem pxBlock with xBlockSize := xSize } }

def prvHeapInit (g : HeapPlace) (h : PortHeap) : PortHeap :=
  let (uxAddress, xTotalHeapSize) :=
    if g.ucHeap &&& portBYTE_ALIGNMENT_MASK ≠ 0 then
      let uxAddress := (g.ucHeap + (portBYTE_ALIGNMENT - 1)) &&& ~~~portBYTE_ALIGNMENT_MASK
      (uxAddress, configTOTAL_HEAP_SIZE - (uxAddress - g.ucHeap))
    else (g.ucHeap, configTOTAL_HEAP_SIZE)
  let pucAlignedHeap := uxAddress
  let h := (h.setNext g.xStart pucAlignedHeap).setSize g.xStart 0
  let uxAddress := (pucAlignedHeap + xTotalHeapSize - xHeapStructSize) &&& ~~~portBYTE_ALIGNMENT_MASK
  let h := { h with pxEnd := uxAddress }
  let h := (h.setSize h.pxEnd 0).setNext h.pxEnd 0
  let pxFirstFreeBlock := pucAlignedHeap
  let h := (h.setSize pxFirstFreeBlock (uxAddress - pxFirstFreeBlock)).setNext pxFirstFreeBlock h.pxEnd
  { h with
    xMinimumEverFreeBytesRemaining := (h.mem pxFirstFreeBlock).xBlockSize
    xFreeBytesRemaining := (h.mem pxFirstFreeBlock).xBlockSize }

/-- The `for` loop of `prvInsertBlockIntoFreeList`. -/
def insertAfter (h : PortHeap) (pxBlockToInsert pxIterator : U32) : ℕ → U32
  | 0 => pxIterator
  | rounds + 1 =>
      if (h.mem pxIterator).pxNextFreeBlock < pxBlockToInsert then
        h.insertAfter pxBlockToInsert (h.mem pxIterator).pxNextFreeBlock rounds
      else pxIterator

/-- The block, joined with the next free one if that lies behind it. -/
def joinNext (h : PortHeap) (pxBlockToInsert pxNext : U32) : PortHeap :=
  if pxBlockToInsert + (h.mem pxBlockToInsert).xBlockSize = pxNext then
    if pxNext ≠ h.pxEnd then
      let h :=
        h.setSize pxBlockToInsert ((h.mem pxBlockToInsert).xBlockSize + (h.mem pxNext).xBlockSize)
      h.setNext pxBlockToInsert (h.mem pxNext).pxNextFreeBlock
    else h.setNext pxBlockToInsert h.pxEnd
  else h.setNext pxBlockToInsert pxNext

def prvInsertBlockIntoFreeList (g : HeapPlace) (h : PortHeap) (pxBlockToInsert : U32) : PortHeap :=
  let pxIterator := h.insertAfter pxBlockToInsert g.xStart heapRounds
  let (pxBlockToInsert, h) :=
    if pxIterator + (h.mem pxIterator).xBlockSize = pxBlockToInsert then
      (pxIterator,
        h.setSize pxIterator ((h.mem pxIterator).xBlockSize + (h.mem pxBlockToInsert).xBlockSize))
    else (pxBlockToInsert, h)
  let h := h.joinNext pxBlockToInsert (h.mem pxIterator).pxNextFreeBlock
  if pxIterator ≠ pxBlockToInsert then h.setNext pxIterator pxBlockToInsert else h

/-- The size of the block for a request, 0 if there is none. -/
def wantedBlockSize (xWantedSize : U32) : U32 :=
  if 0 < xWantedSize then
    let xAdditionalRequiredSize :=
      xHeapStructSize + portBYTE_ALIGNMENT - (xWantedSize &&& portBYTE_ALIGNMENT_MASK)
    if heapADD_WILL_OVERFLOW xWantedSize xAdditionalRequiredSize = false then
      xWantedSize + xAdditionalRequiredSize
    else 0
  else xWantedSize

/-- The `while` loop of `pvPortMalloc`: the previous block and the block. -/
def findBlock (h : PortHeap) (xWantedSize pxPreviousBlock pxBlock : U32) : ℕ → U32 × U32
  | 0 => (pxPreviousBlock, pxBlock)
  | rounds + 1 =>
      if (h.mem pxBlock).xBlockSize < xWantedSize ∧ (h.mem pxBlock).pxNextFreeBlock ≠ 0 then
        h.findBlock xWantedSize pxBlock (h.mem pxBlock).pxNextFreeBlock rounds
      else (pxPreviousBlock, pxBlock)

/-- The block is cut in two if it is much larger than wanted. -/
def splitBlock (g : HeapPlace) (h : PortHeap) (xWantedSize pxBlock : U32) : PortHeap :=
  if heapMINIMUM_BLOCK_SIZE < (h.mem pxBlock).xBlockSize - xWantedSize then
    let pxNewBlockLink := pxBlock + xWantedSize
    let h := h.setSize pxNewBlockLink ((h.mem pxBlock).xBlockSize - xWantedSize)
    let h := h.setSize pxBlock xWantedSize
    h.prvInsertBlockIntoFreeList g pxNewBlockLink
  else h

def allocateBlock (h : PortHeap) (pxBlock : U32) : PortHeap :=
  let h := { h with xFreeBytesRemaining := h.xFreeBytesRemaining - (h.mem pxBlock).xBlockSize }
  let h :=
    if h.xFreeBytesRemaining < h.xMinimumEverFreeBytesRemaining then
      { h with xMinimumEverFreeBytesRemaining := h.xFreeBytesRemaining }
    else h
  let h := h.setSize pxBlock ((h.mem pxBlock).xBlockSize ||| heapBLOCK_ALLOCATED_BITMASK)
  let h := h.setNext pxBlock 0
  { h with xNumberOfSuccessfulAllocations := h.xNumberOfSuccessfulAllocations + 1 }

/-- What `pvPortMalloc` does with the block that it has found. -/
def takeBlock (g : HeapPlace) (h : PortHeap) (xWantedSize pxPreviousBlock pxBlock : U32) :
    U32 × PortHeap :=
  let pvReturn := (h.mem pxPreviousBlock).pxNextFreeBlock + xHeapStructSize
  let h := h.setNext pxPreviousBlock (h.mem pxBlock).pxNextFreeBlock
  let h := h.splitBlock g xWantedSize pxBlock
  (pvReturn, h.allocateBlock pxBlock)

/-- The address, 0 if there is no room, and the heap. -/
def pvPortMalloc (g : HeapPlace) (h : PortHeap) (xWantedSize : U32) : U32 × PortHeap :=
  let h := if h.pxEnd = 0 then h.prvHeapInit g else h
  let xWantedSize := wantedBlockSize xWantedSize
  if heapBLOCK_SIZE_IS_VALID xWantedSize ∧ 0 < xWantedSize ∧ xWantedSize ≤ h.xFreeBytesRemaining then
    let (pxPreviousBlock, pxBlock) :=
      h.findBlock xWantedSize g.xStart (h.mem g.xStart).pxNextFreeBlock heapRounds
    if pxBlock ≠ h.pxEnd then h.takeBlock g xWantedSize pxPreviousBlock pxBlock else (0, h)
  else (0, h)

def vPortFree (g : HeapPlace) (h : PortHeap) (pv : U32) : PortHeap :=
  if pv ≠ 0 then
    let pxLink := pv - xHeapStructSize
    if (h.mem pxLink).xBlockSize &&& heapBLOCK_ALLOCATED_BITMASK ≠ 0 then
      if (h.mem pxLink).pxNextFreeBlock = 0 then
        let h := h.setSize pxLink ((h.mem pxLink).xBlockSize &&& ~~~heapBLOCK_ALLOCATED_BITMASK)
        let h :=
          { h with xFreeBytesRemaining := h.xFreeBytesRemaining + (h.mem pxLink).xBlockSize }
        let h := h.prvInsertBlockIntoFreeList g pxLink
        { h with xNumberOfSuccessfulFrees := h.xNumberOfSuccessfulFrees + 1 }
      else h
    else h
  else h

def xPortGetFreeHeapSize (h : PortHeap) : U32 := h.xFreeBytesRemaining

def xPortGetMinimumEverFreeHeapSize (h : PortHeap) : U32 := h.xMinimumEverFreeBytesRemaining

/-- The `while` loop of `vPortGetHeapStats`: the blocks, the largest and the smallest size. -/
def countBlocks (h : PortHeap) (pxBlock xBlocks xMaxSize xMinSize : U32) : ℕ → U32 × U32 × U32
  | 0 => (xBlocks, xMaxSize, xMinSize)
  | rounds + 1 =>
      if pxBlock ≠ h.pxEnd then
        let xSize := (h.mem pxBlock).xBlockSize
        h.countBlocks (h.mem pxBlock).pxNextFreeBlock (xBlocks + 1)
          (if xMaxSize < xSize then xSize else xMaxSize)
          (if xSize < xMinSize then xSize else xMinSize) rounds
      else (xBlocks, xMaxSize, xMinSize)

def vPortGetHeapStats (g : HeapPlace) (h : PortHeap) : HeapStats :=
  let pxBlock := (h.mem g.xStart).pxNextFreeBlock
  let (xBlocks, xMaxSize, xMinSize) :=
    if pxBlock ≠ 0 then h.countBlocks pxBlock 0 0 heapSIZE_MAX heapRounds else (0, 0, heapSIZE_MAX)
  { xAvailableHeapSpaceInBytes := h.xFreeBytesRemaining
    xSizeOfLargestFreeBlockInBytes := xMaxSize
    xSizeOfSmallestFreeBlockInBytes := xMinSize
    xNumberOfFreeBlocks := xBlocks
    xMinimumEverFreeBytesRemaining := h.xMinimumEverFreeBytesRemaining
    xNumberOfSuccessfulAllocations := h.xNumberOfSuccessfulAllocations
    xNumberOfSuccessfulFrees := h.xNumberOfSuccessfulFrees }

/-- The variables before the first call; the array may hold anything. -/
def start (mem : U32 → BlockLink) : PortHeap :=
  { mem := mem, pxEnd := 0, xFreeBytesRemaining := 0, xMinimumEverFreeBytesRemaining := 0
    xNumberOfSuccessfulAllocations := 0, xNumberOfSuccessfulFrees := 0 }

/-- The first aligned address of the array. -/
def heapBase (g : HeapPlace) : ℕ := (g.ucHeap.toNat + 7) / 8 * 8

/-- Where the last header lies that fits into the array. -/
def heapEnd (g : HeapPlace) : ℕ := (g.ucHeap.toNat + 26616) / 8 * 8

/-- The bytes that a request takes at least: a header, and its size rounded up, always by
some bytes. -/
def allocSize (xWantedSize : U32) : ℕ := xWantedSize.toNat + 16 - xWantedSize.toNat % 8

end PortHeap

/-- Memory that a task has been given and not freed yet. -/
structure LiveBlock where
  pv : U32
  xWantedSize : U32
  deriving DecidableEq

def LiveBlock.bytes (b : LiveBlock) : Block := ⟨b.pv.toNat, b.xWantedSize.toNat⟩

/-- The bytes that the task may use, with the header before them and what lies behind. -/
def LiveBlock.extent (h : PortHeap) (b : LiveBlock) : Block :=
  ⟨b.pv.toNat - 8, ((h.mem (b.pv - xHeapStructSize)).xBlockSize &&& ~~~heapBLOCK_ALLOCATED_BITMASK).toNat⟩

structure HeapTasks where
  heap : PortHeap
  live : List LiveBlock

inductive HeapCall where
  | malloc (xWantedSize : U32)
  | free (pv : U32)
  | write (mem : U32 → BlockLink)

namespace HeapTasks

/-- A task frees what it has been given, or nothing, and writes only into memory that a
task has been given. -/
def Ready (s : HeapTasks) : HeapCall → Prop
  | .malloc _ => True
  | .free pv => pv = 0 ∨ ∃ b ∈ s.live, b.pv = pv
  | .write mem => ∀ p, (∀ b ∈ s.live, Block.Apart ⟨p.toNat, 8⟩ b.bytes) → mem p = s.heap.mem p

def next (g : HeapPlace) (s : HeapTasks) : HeapCall → HeapTasks
  | .malloc xWantedSize =>
      let (pv, heap) := s.heap.pvPortMalloc g xWantedSize
      { heap := heap, live := if pv ≠ 0 then ⟨pv, xWantedSize⟩ :: s.live else s.live }
  | .free pv => { heap := s.heap.vPortFree g pv, live := s.live.filter fun b => b.pv ≠ pv }
  | .write mem => { s with heap := { s.heap with mem := mem } }

def Step (g : HeapPlace) (s : HeapTasks) (e : HeapCall) (s' : HeapTasks) : Prop :=
  s.Ready e ∧ s' = s.next g e

/-- The answers to the requests among the calls. -/
def answers (g : HeapPlace) : HeapTasks → List HeapCall → List U32
  | _, [] => []
  | s, .malloc xWantedSize :: evs =>
      (s.heap.pvPortMalloc g xWantedSize).1 :: answers g (s.next g (.malloc xWantedSize)) evs
  | s, e :: evs => answers g (s.next g e) evs

def start (mem : U32 → BlockLink) : HeapTasks := { heap := PortHeap.start mem, live := [] }

end HeapTasks

end Stm32F407
