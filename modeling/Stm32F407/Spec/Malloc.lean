import Stm32F407.Lib.Cells
import Stm32F407.Lib.Run
import Stm32F407.Lib.Tiling
import Stm32F407.Spec.Word
import Mathlib.Algebra.Order.Floor.Div

/-! The block allocator of `malloc.c`. A bank is `memtblsize` blocks of
`memblksize` bytes with one 32-bit table cell per block. The table is read and
written through plain pointers, so it is a memory of cells and a write past
its end would be seen here too. -/

namespace Stm32F407

open Lib

/-- The row of `memtblsize`, `memblksize` and `memsize` that `memx` selects. -/
structure Bank where
  memtblsize : ℕ
  memblksize : ℕ
  memsize : ℕ
  blk_pos : 0 < memblksize
  size_eq : memsize = memtblsize * memblksize
  size_lt : memsize < 2 ^ 31

def mem1 : Bank := ⟨480, 64, 30 * 1024, by decide, by decide, by decide⟩
def mem2 : Bank := ⟨16, 64, 1 * 1024, by decide, by decide, by decide⟩

/-- The entries of `g_mem_dev` for one bank. -/
structure BankState where
  memmap : ℕ → U32
  memrdy : U8

/-- Byte `k` of a little-endian word replaced by `c`. -/
def setByte (w : U32) (k : ℕ) (c : U8) : U32 :=
  (w &&& ~~~((0xFF : U32) <<< (8 * k))) ||| c.setWidth 32 <<< (8 * k)

/-- `my_mem_set` on the table: `n` bytes set to `c`, counted from its first byte. -/
def myMemSet (map : ℕ → U32) (c : U8) : ℕ → ℕ → U32
  | 0 => map
  | n + 1 =>
      let map' := myMemSet map c n
      Function.update map' (n / 4) (setByte (map' (n / 4)) (n % 4) c)

/-- `my_mem_init`; the byte count `memtblsize[memx] * 4` is a 32-bit product. -/
def myMemInit (b : Bank) (s : BankState) : BankState where
  memmap := myMemSet s.memmap 0 (BitVec.ofNat 32 (b.memtblsize * 4)).toNat
  memrdy := 1

/-- `if(!g_mem_dev.memrdy[memx]) g_mem_dev.init(memx);` -/
def ensureInit (b : Bank) (s : BankState) : BankState :=
  if s.memrdy = 0 then myMemInit b s else s

/-- The cells in use among the first `i`, as the counting loop of `my_mem_perused` has it. -/
def countUsed (map : ℕ → U32) : ℕ → U32
  | 0 => 0
  | i + 1 =>
      let used := countUsed map i
      if map i ≠ 0 then used + 1 else used

/-- `my_mem_perused`, in thousandths of the bank. -/
def myMemPerused (b : Bank) (s : BankState) : U16 :=
  (countUsed s.memmap b.memtblsize * 1000 / BitVec.ofNat 32 b.memtblsize).setWidth 16

/-- The downward scan of `my_mem_malloc` over the cells below `k`, where `cmemb`
counts the free cells found in a row so far. -/
def scan (map : ℕ → U32) (nmemb : ℕ) : ℕ → ℕ → Option ℕ
  | 0, _ => none
  | offset + 1, cmemb =>
      let cmemb := if map offset = 0 then cmemb + 1 else 0
      if cmemb = nmemb then some offset else scan map nmemb offset cmemb

/-- The number of blocks `my_mem_malloc` takes for a request. -/
def blocksFor (b : Bank) (size : U32) : ℕ :=
  size.toNat / b.memblksize + if size.toNat % b.memblksize = 0 then 0 else 1

def myMemMalloc (b : Bank) (s : BankState) (size : U32) : U32 × BankState :=
  let s := ensureInit b s
  if size = 0 then (0xFFFFFFFF, s)
  else
    let nmemb := blocksFor b size
    match scan s.memmap nmemb b.memtblsize 0 with
    | none => (0xFFFFFFFF, s)
    | some offset =>
        let map := fill s.memmap offset (BitVec.ofNat 32 nmemb) nmemb
        (BitVec.ofNat 32 (offset * b.memblksize), { s with memmap := map })

/-- `my_mem_free`. `nmemb` is an `int`, so a cell of `2 ^ 31` or more clears nothing. -/
def myMemFree (b : Bank) (s : BankState) (offset : U32) : U8 × BankState :=
  if s.memrdy = 0 then (1, myMemInit b s)
  else if offset.toNat < b.memsize then
    let index := offset.toNat / b.memblksize
    let nmemb := (s.memmap index).toInt
    (0, { s with memmap := fill s.memmap index 0 nmemb.toNat })
  else (2, s)

/-- The table indices that `my_mem_free` writes, in order. -/
def myMemFreeWrites (b : Bank) (s : BankState) (offset : U32) : List ℕ :=
  if s.memrdy = 0 then (List.range (BitVec.ofNat 32 (b.memtblsize * 4)).toNat).map (· / 4)
  else if offset.toNat < b.memsize then
    let index := offset.toNat / b.memblksize
    List.range' index (s.memmap index).toInt.toNat
  else []

/-- A successful `my_mem_malloc(memx, size)` that returned `off`. -/
structure Alloc where
  off : U32
  size : U32
  deriving DecidableEq

def Alloc.block (b : Bank) (a : Alloc) : Block :=
  ⟨a.off.toNat / b.memblksize, a.size.toNat ⌈/⌉ b.memblksize⟩

/-- The table of a bank read as natural numbers. -/
def BankState.cells (s : BankState) : ℕ → ℕ := fun j => (s.memmap j).toNat

/-- What the table has to say about the live allocations. -/
structure Represents (b : Bank) (s : BankState) (live : List Alloc) : Prop where
  aligned : ∀ a ∈ live, b.memblksize ∣ a.off.toNat
  tiling : Tiling b.memtblsize s.cells (live.map (Alloc.block b))

/-- A bank together with the allocations handed out and not yet freed. -/
structure Heap where
  bank : BankState
  live : List Alloc

def liveAfter (live : List Alloc) (off size : U32) : List Alloc :=
  if off = 0xFFFFFFFF then live else ⟨off, size⟩ :: live

inductive HeapOp where
  | malloc (size : U32)
  | free (off : U32)
  deriving DecidableEq

/-- A client may pass to `my_mem_free` only the offset of a live allocation. -/
inductive HeapStep (b : Bank) : Heap → HeapOp → Heap → Prop
  | malloc (h : Heap) (size : U32) :
      HeapStep b h (.malloc size)
        ⟨(myMemMalloc b h.bank size).2, liveAfter h.live (myMemMalloc b h.bank size).1 size⟩
  | free (h : Heap) (a : Alloc) (ha : a ∈ h.live) :
      HeapStep b h (.free a.off)
        ⟨(myMemFree b h.bank a.off).2, h.live.erase a⟩

/-- Power-up: the bank is not ready and its table holds anything. -/
def Heap.start (map : ℕ → U32) : Heap := ⟨⟨map, 0⟩, []⟩

/-- The states a bank can be in: its table is static data that starts as zeros, or
it held anything and the first call cleared it. -/
inductive Reachable (b : Bank) (h : Heap) : Prop
  | static (map : ℕ → U32) (ops : List HeapOp) (hzero : ∀ j < b.memtblsize, map j = 0)
      (hrun : Run (HeapStep b) (Heap.start map) ops h)
  | cleared (map : ℕ → U32) (ops : List HeapOp) (hfit : b.memtblsize < 2 ^ 30) (hne : ops ≠ [])
      (hrun : Run (HeapStep b) (Heap.start map) ops h)

end Stm32F407
