import Stm32F407.Spec.Realloc
import Stm32F407.Proofs.MallocFree

/-! `myrealloc` on a live pointer. The new block is disjoint from the old one, so
the copy preserves the bytes of the old block and of every other block; but it
reads as many bytes as the new size, so it stays in the old block only when the
new size fits there. -/

namespace Stm32F407

open Lib

theorem add_ofNat_succ (x : U32) (i : ℕ) :
    x + 1 + BitVec.ofNat 32 i = x + BitVec.ofNat 32 (i + 1) := by
  rw [BitVec.ofNat_add, BitVec.add_assoc, BitVec.add_comm (BitVec.ofNat 32 i)]
  rfl

theorem myMemCpy_outside {mem : U32 → U8} {des src x : U32} {n : ℕ}
    (h : ∀ i < n, x ≠ des + BitVec.ofNat 32 i) : myMemCpy mem des src n x = mem x := by
  induction n generalizing mem des src with
  | zero => rfl
  | succ n ih =>
    have h0 : x ≠ des := by simpa using h 0 (by omega)
    rw [myMemCpy, ih fun i hi => by simpa only [add_ofNat_succ] using h (i + 1) (by omega)]
    exact Function.update_of_ne h0 _ _

/-- A source byte that the copy has not overwritten before it is read arrives. -/
theorem myMemCpy_inside {mem : U32 → U8} {des src : U32} {n i : ℕ} (hn : n ≤ 2 ^ 32) (hi : i < n)
    (hunread : ∀ j < i, src + BitVec.ofNat 32 i ≠ des + BitVec.ofNat 32 j) :
    myMemCpy mem des src n (des + BitVec.ofNat 32 i) = mem (src + BitVec.ofNat 32 i) := by
  induction n generalizing mem des src i with
  | zero => omega
  | succ n ih =>
    rw [myMemCpy]
    cases i with
    | zero =>
      rw [myMemCpy_outside fun k hk => by rw [add_ofNat_succ]; bv_omega]
      simp
    | succ i =>
      rw [← add_ofNat_succ, ← add_ofNat_succ, ih (by omega) (by omega) fun j hj => by
        simpa only [add_ofNat_succ] using hunread (j + 1) (by omega)]
      apply Function.update_of_ne
      simpa only [add_ofNat_succ, BitVec.add_zero] using hunread 0 (by omega)

theorem mem_myMemCpyReads {src x : U32} {n : ℕ} :
    x ∈ myMemCpyReads src n ↔ ∃ i < n, x = src + BitVec.ofNat 32 i := by
  induction n generalizing src with
  | zero => simp [myMemCpyReads]
  | succ n ih =>
    simp only [myMemCpyReads, List.mem_cons, ih, add_ofNat_succ]
    constructor
    · rintro (rfl | ⟨i, hi, rfl⟩)
      · exact ⟨0, by omega, by simp⟩
      · exact ⟨i + 1, by omega, rfl⟩
    · rintro ⟨i, hi, rfl⟩
      rcases i with _ | i
      · exact Or.inl (by simp)
      · exact Or.inr ⟨i, by omega, rfl⟩

variable {p : Pool} {h : Heap} {a c : Alloc}

def Pool.addr (p : Pool) (k : ℕ) : U32 := p.membase + BitVec.ofNat 32 k

theorem Pool.ptr_add (p : Pool) (a : Alloc) (i : ℕ) :
    p.ptr a + BitVec.ofNat 32 i = p.addr (a.off.toNat + i) := by
  rw [Pool.ptr, Pool.addr, BitVec.ofNat_add, BitVec.ofNat_toNat, BitVec.setWidth_eq,
    BitVec.add_assoc]

theorem Pool.addr_toNat {k : ℕ} (hk : k < p.memsize) : (p.addr k).toNat = p.membase.toNat + k := by
  have hfits := p.fits
  rw [Pool.addr, BitVec.toNat_add, BitVec.toNat_ofNat]
  omega

theorem Pool.addr_inj {k l : ℕ} (hk : k < p.memsize) (hl : l < p.memsize)
    (heq : p.addr k = p.addr l) : k = l := by
  have := congrArg BitVec.toNat heq
  rw [Pool.addr_toNat hk, Pool.addr_toNat hl] at this
  omega

theorem Pool.ptr_ne (ha : a.off.toNat < p.memsize) : p.ptr a ≠ 0 := base_add_ne p.base_ne p.fits ha

theorem Pool.myFree_ptr {s : BankState} (ha : a.off.toNat < p.memsize) :
    p.myFree s (p.ptr a) = (myMemFree p.toBank s a.off).2 := by
  rw [Pool.myFree, if_neg (Pool.ptr_ne ha), Pool.ptr, BitVec.add_comm, BitVec.add_sub_cancel]

/-- The bytes of a live allocation lie in the bank, from its offset on. -/
theorem Represents.extent {b : Bank} {s : BankState} {live : List Alloc}
    (hrep : Represents b s live) (ha : a ∈ live) :
    a.off.toNat = (a.block b).start * b.memblksize ∧ a.off.toNat + a.capacity b ≤ b.memsize := by
  have hin := hrep.tiling.inside _ (List.mem_map_of_mem ha)
  have hoff : a.off.toNat = (a.block b).start * b.memblksize :=
    (Nat.div_mul_cancel (hrep.aligned a ha)).symm
  refine ⟨hoff, ?_⟩
  rw [hoff, Alloc.capacity, ← Nat.add_mul, b.size_eq]
  exact Nat.mul_le_mul_right _ hin

/-- Two live blocks that are apart share no byte. -/
theorem Represents.bytes_ne {s : BankState} {live : List Alloc} {i j : ℕ}
    (hrep : Represents p.toBank s live) (ha : a ∈ live) (hc : c ∈ live)
    (hap : (a.block p.toBank).Apart (c.block p.toBank)) (hi : i < a.capacity p.toBank)
    (hj : j < c.capacity p.toBank) :
    p.ptr a + BitVec.ofNat 32 i ≠ p.ptr c + BitVec.ofNat 32 j := by
  obtain ⟨hoa, hea⟩ := hrep.extent ha
  obtain ⟨hoc, hec⟩ := hrep.extent hc
  rw [p.ptr_add, p.ptr_add]
  intro heq
  have hk := Pool.addr_inj (by omega) (by omega) heq
  rw [Alloc.capacity] at hi hj
  rw [hoa, hoc] at hk
  rcases hap with hap | hap
  · have := Nat.mul_le_mul_right p.memblksize hap
    rw [Nat.add_mul] at this
    omega
  · have := Nat.mul_le_mul_right p.memblksize hap
    rw [Nat.add_mul] at this
    omega

theorem size_le_capacity (b : Bank) (a : Alloc) : a.size.toNat ≤ a.capacity b := by
  rw [Alloc.capacity, Alloc.block, Nat.mul_comm]
  exact (ceilDiv_le_iff_le_mul b.blk_pos).mp le_rfl

/-- The live allocations after a successful call, with the old one in front. -/
theorem Represents.cons_perm {live : List Alloc} {n : Alloc} (ha : a ∈ live) :
    (n :: live).Perm (a :: n :: live.erase a) :=
  ((List.perm_cons_erase ha).cons n).trans (List.Perm.swap a n _)

theorem Represents.apart_cons {b : Bank} {s : BankState} {live : List Alloc}
    (hrep : Represents b s (a :: live)) : ∀ c ∈ live, (a.block b).Apart (c.block b) := by
  have hap := List.pairwise_map.mp hrep.tiling.apart
  exact (List.pairwise_cons.mp hap).1

theorem Represents.ne_cons {b : Bank} {s : BankState} {live : List Alloc}
    (hrep : Represents b s (a :: live)) : ∀ c ∈ live, c ≠ a := by
  rintro c hc rfl
  have hpos := hrep.tiling.pos (c.block b) List.mem_cons_self
  have hself := hrep.apart_cons c hc
  rw [Block.Apart] at hself
  omega

structure Relocated (p : Pool) (h : Heap) (mem : U32 → U8) (a : Alloc) (size ptr : U32)
    (s' : BankState) (mem' : U32 → U8) (n : Alloc) : Prop where
  ptr_eq : ptr = p.ptr n
  size_eq : n.size = size
  reachable : Reachable p.toBank ⟨s', n :: h.live.erase a⟩
  room : size.toNat ≤ n.capacity p.toBank
  apart : ∀ c ∈ h.live.erase a, (n.block p.toBank).Apart (c.block p.toBank)
  copied : ∀ i < min a.size.toNat size.toNat,
    mem' (ptr + BitVec.ofNat 32 i) = mem (p.ptr a + BitVec.ofNat 32 i)
  released : ∀ j ∈ a.block p.toBank, s'.memmap j = 0
  bytes : ∀ c ∈ h.live.erase a, ∀ i < c.capacity p.toBank,
    mem' (p.ptr c + BitVec.ofNat 32 i) = mem (p.ptr c + BitVec.ofNat 32 i)
  cells : ∀ c ∈ h.live.erase a, ∀ j ∈ c.block p.toBank, s'.memmap j = h.bank.memmap j

theorem myrealloc_fail {mem : U32 → U8} {ptr size : U32} (hready : h.bank.memrdy ≠ 0)
    (hoff : (myMemMalloc p.toBank h.bank size).1 = 0xFFFFFFFF) :
    myrealloc p h.bank mem ptr size = (0, h.bank, mem) := by
  have hres := myMemMalloc_result p.toBank h.bank size
  rw [ensureInit_of_ready _ hready] at hres
  have hsame : (myMemMalloc p.toBank h.bank size).2 = h.bank := by
    generalize myMemMalloc p.toBank h.bank size = r at *
    obtain ⟨off, s'⟩ := r
    simp only at hoff hres
    cases hres with
    | fail => rfl
    | found q _ hpos hin _ hq => exact absurd hoff (MallocResult.off_ne hpos hin hq)
  simp only [myrealloc, if_pos hoff, hsame]

theorem myrealloc_ok {mem : U32 → U8} {size : U32} (ha : a.off.toNat < p.memsize)
    (hoff : (myMemMalloc p.toBank h.bank size).1 ≠ 0xFFFFFFFF) :
    myrealloc p h.bank mem (p.ptr a) size =
      (p.ptr ⟨(myMemMalloc p.toBank h.bank size).1, size⟩,
        (myMemFree p.toBank (myMemMalloc p.toBank h.bank size).2 a.off).2,
        myMemCpy mem (p.ptr ⟨(myMemMalloc p.toBank h.bank size).1, size⟩) (p.ptr a) size.toNat) := by
  simp only [myrealloc, if_neg hoff, Pool.myFree_ptr ha]
  rfl

theorem myrealloc_relocated (hr : Reachable p.toBank h) (mem : U32 → U8) (ha : a ∈ h.live)
    {size : U32} (hoff : (myMemMalloc p.toBank h.bank size).1 ≠ 0xFFFFFFFF) :
    Relocated p h mem a size (myrealloc p h.bank mem (p.ptr a) size).1
      (myrealloc p h.bank mem (p.ptr a) size).2.1 (myrealloc p h.bank mem (p.ptr a) size).2.2
      ⟨(myMemMalloc p.toBank h.bank size).1, size⟩ := by
  have hinv := hr.staticInv
  have hr₁ := hr.snoc (HeapStep.malloc h size)
  rw [liveAfter, if_neg hoff] at hr₁
  set n : Alloc := ⟨(myMemMalloc p.toBank h.bank size).1, size⟩
  set s₁ := (myMemMalloc p.toBank h.bank size).2
  -- The table after the allocation, with the old block in front.
  have hrep₁ : Represents p.toBank s₁ (a :: n :: h.live.erase a) :=
    hr₁.staticInv.rep.perm (Represents.cons_perm ha)
  have hap_a := hrep₁.apart_cons
  have hap_n := (hrep₁.perm (List.Perm.swap n a _)).apart_cons
  have hne : n ≠ a := hrep₁.ne_cons n List.mem_cons_self
  have hr₂ := hr₁.snoc (HeapStep.free ⟨s₁, n :: h.live⟩ a (List.mem_cons_of_mem _ ha))
  rw [List.erase_cons_tail (by simpa using hne)] at hr₂
  have hrep₂ := hr₂.staticInv.rep
  have hcall : myrealloc p h.bank mem (p.ptr a) size = (p.ptr n, (myMemFree p.toBank s₁ a.off).2,
      myMemCpy mem (p.ptr n) (p.ptr a) size.toNat) :=
    myrealloc_ok (hrep₁.off_lt List.mem_cons_self) hoff
  rw [hcall]
  refine ⟨rfl, rfl, hr₂, size_le_capacity p.toBank n, fun c hc => hap_n c (List.mem_cons_of_mem _ hc),
    fun i hi => ?_, fun j hj => ?_, fun c hc i hi => ?_, fun c hc j hj => ?_⟩
  · have hold := size_le_capacity p.toBank a
    have hroom : size.toNat ≤ n.capacity p.toBank := size_le_capacity p.toBank n
    have hlt := size.isLt
    refine myMemCpy_inside (by omega) (by omega) fun j hj => ?_
    exact hrep₁.bytes_ne (by simp) (by simp) (hap_a n (by simp)) (by omega) (by omega)
  · by_contra hcell
    have hin := hrep₁.tiling.inside (a.block p.toBank) (by simp)
    rw [Block.mem_iff] at hj
    obtain ⟨c, hc, hjc⟩ := (hrep₂.cell_ne_zero_iff (by omega)).mp hcell
    exact (hap_a c hc).not_mem hj hjc
  · have hroom : size.toNat ≤ n.capacity p.toBank := size_le_capacity p.toBank n
    refine myMemCpy_outside fun j hj => ?_
    exact hrep₁.bytes_ne (by simp [hc]) (by simp) (hap_n c (List.mem_cons_of_mem _ hc)).symm hi
      (by omega)
  · apply BitVec.eq_of_toNat_eq
    have h1 := hrep₂.tiling.mark (c.block p.toBank) (List.mem_map_of_mem (by simp [hc])) j hj
    have h2 := hinv.rep.tiling.mark (c.block p.toBank)
      (List.mem_map_of_mem (List.mem_of_mem_erase hc)) j hj
    exact h1.trans h2.symm

/-- A failed call changes nothing; a successful one moves the allocation, with as much
of its contents as the new size has room for, and touches no other allocation. -/
theorem realloc_preserves (p : Pool) (h : Heap) (hr : Reachable p.toBank h) (mem : U32 → U8)
    (a : Alloc) (ha : a ∈ h.live) (size : U32) :
    ((myrealloc p h.bank mem (p.ptr a) size).1 = 0 →
      (myrealloc p h.bank mem (p.ptr a) size).2.1.memmap = h.bank.memmap ∧
      (myrealloc p h.bank mem (p.ptr a) size).2.2 = mem ∧
      Reachable p.toBank ⟨(myrealloc p h.bank mem (p.ptr a) size).2.1, h.live⟩) ∧
    ((myrealloc p h.bank mem (p.ptr a) size).1 ≠ 0 →
      ∃ n, Relocated p h mem a size (myrealloc p h.bank mem (p.ptr a) size).1
        (myrealloc p h.bank mem (p.ptr a) size).2.1
        (myrealloc p h.bank mem (p.ptr a) size).2.2 n) := by
  by_cases hoff : (myMemMalloc p.toBank h.bank size).1 = 0xFFFFFFFF
  · rw [myrealloc_fail (hr.staticInv.ready ha) hoff]
    exact ⟨fun _ => ⟨rfl, rfl, hr⟩, fun hne => absurd rfl hne⟩
  · have hmoved := myrealloc_relocated hr mem ha hoff
    refine ⟨fun h0 => ?_, fun _ => ⟨_, hmoved⟩⟩
    have hlive := hmoved.reachable.staticInv.rep.off_lt List.mem_cons_self
    rw [hmoved.ptr_eq] at h0
    exact absurd h0 (Pool.ptr_ne hlive)

/-- Shrinking the only allocation of the second bank moves it below its old place. -/
theorem realloc_preserves_mem2 : ∃ h, Reachable mem2 h ∧ ∃ n,
    Relocated mem2Pool h (fun x => x.setWidth 8) ⟨832, 150⟩ 70
      (myrealloc mem2Pool h.bank (fun x => x.setWidth 8) (mem2Pool.ptr ⟨832, 150⟩) 70).1
      (myrealloc mem2Pool h.bank (fun x => x.setWidth 8) (mem2Pool.ptr ⟨832, 150⟩) 70).2.1
      (myrealloc mem2Pool h.bank (fun x => x.setWidth 8) (mem2Pool.ptr ⟨832, 150⟩) 70).2.2 n := by
  have hs : HeapStep mem2 _ _ _ := .malloc (Heap.start fun _ => 0) 150
  have hr : Reachable mem2 _ := .static (fun _ => 0) _ (fun _ _ => rfl) (Run.single hs)
  exact ⟨_, hr, (realloc_preserves mem2Pool _ hr _ ⟨832, 150⟩ (by decide) 70).2 (by decide)⟩

/-- Each of the addresses is a byte of the blocks of `a`, hence of the bank. -/
def InBlocks (p : Pool) (a : Alloc) (addrs : List U32) : Prop :=
  ∀ x ∈ addrs, (∃ i < a.capacity p.toBank, x = p.ptr a + BitVec.ofNat 32 i) ∧
    ∃ k < p.memsize, x = p.addr k

theorem inBlocks_reads {s : BankState} {live : List Alloc} (hrep : Represents p.toBank s live)
    (ha : a ∈ live) (n : ℕ) :
    InBlocks p a (myMemCpyReads (p.ptr a) n) ↔ n ≤ a.capacity p.toBank := by
  obtain ⟨-, hext⟩ := hrep.extent ha
  have hsize := p.size_lt
  constructor
  · -- The first byte read past the blocks has an address of its own.
    intro hin
    by_contra hlt
    obtain ⟨⟨i, hi, heq⟩, -⟩ :=
      hin _ (mem_myMemCpyReads.mpr ⟨a.capacity p.toBank, by omega, rfl⟩)
    have hoff := congrArg BitVec.toNat ((BitVec.add_right_inj _).mp heq)
    rw [BitVec.toNat_ofNat, BitVec.toNat_ofNat] at hoff
    omega
  · intro hle x hx
    obtain ⟨i, hi, rfl⟩ := mem_myMemCpyReads.mp hx
    exact ⟨⟨i, by omega, rfl⟩, a.off.toNat + i, by omega, p.ptr_add a i⟩

/-- A successful call reads only bytes of the block it resizes exactly when the new
size is at most the size of that block. -/
theorem realloc_reads_inside_iff (p : Pool) (h : Heap) (hr : Reachable p.toBank h) (a : Alloc)
    (ha : a ∈ h.live) (size : U32) (hoff : (myMemMalloc p.toBank h.bank size).1 ≠ 0xFFFFFFFF) :
    InBlocks p a (myreallocReads p h.bank (p.ptr a) size) ↔
      size.toNat ≤ (a.block p.toBank).len * p.memblksize := by
  rw [myreallocReads, if_neg hoff]
  exact inBlocks_reads hr.staticInv.rep ha size.toNat

/-- Growing from 70 to 100 bytes stays in the two blocks the allocation has. -/
theorem realloc_reads_inside_mem2 : ∃ h, Reachable mem2 h ∧
    InBlocks mem2Pool ⟨896, 70⟩ (myreallocReads mem2Pool h.bank (mem2Pool.ptr ⟨896, 70⟩) 100) := by
  have hs : HeapStep mem2 _ _ _ := .malloc (Heap.start fun _ => 0) 70
  have hr : Reachable mem2 _ := .static (fun _ => 0) _ (fun _ _ => rfl) (Run.single hs)
  refine ⟨_, hr, ?_⟩
  exact (realloc_reads_inside_iff mem2Pool _ hr ⟨896, 70⟩ (by decide) 100 (by decide)).mpr
    (by decide)

/-- Growing the topmost block of the second bank from 64 to 65 bytes reads the byte after
the end of the bank. -/
theorem not_realloc_reads_inside :
    ¬ ∀ (p : Pool) (h : Heap), Reachable p.toBank h → ∀ a ∈ h.live, ∀ size : U32,
      (myMemMalloc p.toBank h.bank size).1 ≠ 0xFFFFFFFF →
      InBlocks p a (myreallocReads p h.bank (p.ptr a) size) := by
  intro hall
  obtain ⟨h, hr, ha, hok⟩ : ∃ h, Reachable mem2 h ∧ (⟨960, 64⟩ : Alloc) ∈ h.live ∧
      (myMemMalloc mem2Pool.toBank h.bank 65).1 ≠ 0xFFFFFFFF := by
    have hs : HeapStep mem2 _ _ _ := .malloc (Heap.start fun _ => 0) 64
    exact ⟨_, .static (fun _ => 0) _ (fun _ _ => rfl) (Run.single hs), by decide, by decide⟩
  have hin := hall mem2Pool h hr _ ha 65 hok
  rw [myreallocReads, if_neg hok] at hin
  exact absurd ((inBlocks_reads hr.staticInv.rep ha 65).mp hin) (by decide)

end Stm32F407
