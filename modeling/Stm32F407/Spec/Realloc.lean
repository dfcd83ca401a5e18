import Stm32F407.Spec.Malloc

/-! `myrealloc` and the byte copy it makes. The bytes of the address space are a
function of the 32-bit address, so that a copy that leaves the bank is seen too. -/

namespace Stm32F407

/-- A bank with the address its `membase` has, whatever the size of its table. -/
structure Pool extends Bank where
  membase : U32
  base_ne : membase ≠ 0
  fits : membase.toNat + memsize ≤ 2 ^ 32

def mem2Pool : Pool := ⟨mem2, 0xC01F4000, by decide, by decide⟩

def Pool.myFree (p : Pool) (s : BankState) (ptr : U32) : BankState :=
  if ptr = 0 then s else (myMemFree p.toBank s (ptr - p.membase)).2

/-- `my_mem_cpy`: one byte at a time, in ascending order. -/
def myMemCpy (mem : U32 → U8) (des src : U32) : ℕ → U32 → U8
  | 0 => mem
  | n + 1 => myMemCpy (Function.update mem des (mem src)) (des + 1) (src + 1) n

/-- The addresses `my_mem_cpy` reads, in order. -/
def myMemCpyReads (src : U32) : ℕ → List U32
  | 0 => []
  | n + 1 => src :: myMemCpyReads (src + 1) n

def myrealloc (p : Pool) (s : BankState) (mem : U32 → U8) (ptr size : U32) :
    U32 × BankState × (U32 → U8) :=
  let r := myMemMalloc p.toBank s size
  if r.1 = 0xFFFFFFFF then (0, r.2, mem)
  else
    let mem := myMemCpy mem (p.membase + r.1) ptr size.toNat
    (p.membase + r.1, p.myFree r.2 ptr, mem)

/-- The source bytes a call of `myrealloc` reads. -/
def myreallocReads (p : Pool) (s : BankState) (ptr size : U32) : List U32 :=
  if (myMemMalloc p.toBank s size).1 = 0xFFFFFFFF then [] else myMemCpyReads ptr size.toNat

def Pool.ptr (p : Pool) (a : Alloc) : U32 := p.membase + a.off

def Alloc.capacity (b : Bank) (a : Alloc) : ℕ := (a.block b).len * b.memblksize

end Stm32F407
