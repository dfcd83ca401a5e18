import Stm32F407.Proofs.Malloc
import Mathlib.Order.Bounds.Basic

/-! Where `my_mem_malloc` puts a request: at the topmost run of free cells that
is long enough, and it fails only when there is no such run. The downward scan
passes no run because the cells counted so far always lie just above it. -/

namespace Stm32F407

open Lib

structure FreeRun (N : ℕ) (map : ℕ → U32) (n p : ℕ) : Prop where
  inside : p + n ≤ N
  free : ∀ j, p ≤ j → j < p + n → map j = 0

def Topmost (N : ℕ) (map : ℕ → U32) (n p : ℕ) : Prop := IsGreatest {p | FreeRun N map n p} p

/-- The scan stops at or above every free run below `k + cmemb`. -/
theorem scan_of_freeRun {map : ℕ → U32} {nmemb k cmemb p : ℕ} (hc : cmemb < nmemb)
    (h : FreeRun (k + cmemb) map nmemb p) : ∃ q, scan map nmemb k cmemb = some q ∧ p ≤ q := by
  induction k generalizing cmemb with
  | zero =>
    have := h.inside
    omega
  | succ k ih =>
    have hin := h.inside
    simp only [scan]
    by_cases hz : map k = 0
    · rw [if_pos hz]
      by_cases hhit : cmemb + 1 = nmemb
      · rw [if_pos hhit]
        exact ⟨k, rfl, by omega⟩
      · rw [if_neg hhit]
        apply ih (by omega)
        rwa [show k + (cmemb + 1) = k + 1 + cmemb by omega]
    · -- The run cannot contain the occupied cell, and above it there is no room.
      have hout : ¬ (p ≤ k ∧ k < p + nmemb) := fun hk => hz (h.free k hk.1 hk.2)
      rw [if_neg hz, if_neg (by omega)]
      exact ih (by omega) ⟨by omega, h.free⟩

theorem scan_freeRun {map : ℕ → U32} {nmemb N p : ℕ} (hpos : 0 < nmemb)
    (h : scan map nmemb N 0 = some p) : FreeRun N map nmemb p := by
  obtain ⟨hin, hfree⟩ := scan_some hpos (by omega) h
  exact ⟨by omega, hfree⟩

theorem scan_eq_none_iff {map : ℕ → U32} {nmemb N : ℕ} (hpos : 0 < nmemb) :
    scan map nmemb N 0 = none ↔ ∀ p, ¬ FreeRun N map nmemb p := by
  constructor
  · intro hnone p hp
    obtain ⟨q, hq, -⟩ := scan_of_freeRun (k := N) hpos hp
    simp [hnone] at hq
  · intro hall
    rcases hs : scan map nmemb N 0 with _ | p
    · rfl
    · exact absurd (scan_freeRun hpos hs) (hall p)

theorem scan_eq_some_iff {map : ℕ → U32} {nmemb N p : ℕ} (hpos : 0 < nmemb) :
    scan map nmemb N 0 = some p ↔ Topmost N map nmemb p := by
  constructor
  · intro hs
    refine ⟨scan_freeRun hpos hs, fun q hq => ?_⟩
    obtain ⟨p', hs', hle⟩ := scan_of_freeRun (k := N) hpos hq
    rw [hs] at hs'
    rwa [Option.some.inj hs']
  · intro htop
    obtain ⟨q, hs, hle⟩ := scan_of_freeRun (k := N) hpos htop.1
    have hge : q ≤ p := htop.2 (scan_freeRun hpos hs)
    rw [hs, Nat.le_antisymm hge hle]

/-- The cells below `k` are free and those from `k` on in use, as after requests only. -/
structure Stacked (N : ℕ) (map : ℕ → U32) (k : ℕ) : Prop where
  le : k ≤ N
  free : ∀ j < k, map j = 0
  used : ∀ j, k ≤ j → j < N → map j ≠ 0

theorem stacked_empty {N : ℕ} {map : ℕ → U32} (hz : ∀ j < N, map j = 0) : Stacked N map N :=
  ⟨le_rfl, hz, fun j h1 h2 => by omega⟩

theorem Stacked.topmost {N k n : ℕ} {map : ℕ → U32} (h : Stacked N map k) (hn : 0 < n)
    (hle : n ≤ k) : Topmost N map n (k - n) := by
  have hk := h.le
  refine ⟨⟨by omega, fun j _ hj => h.free j (by omega)⟩, fun q hq => ?_⟩
  have hin := hq.inside
  by_contra hlt
  exact h.used (q + n - 1) (by omega) (by omega) (hq.free _ (by omega) (by omega))

theorem myMemMalloc_zero (b : Bank) (s : BankState) :
    myMemMalloc b s 0 = (0xFFFFFFFF, ensureInit b s) := by
  simp [myMemMalloc]

theorem myMemMalloc_none {b : Bank} {s : BankState} {size : U32}
    (h : ∀ p, ¬ FreeRun b.memtblsize (ensureInit b s).memmap (blocksFor b size) p) :
    myMemMalloc b s size = (0xFFFFFFFF, ensureInit b s) := by
  by_cases h0 : size = 0
  · rw [h0, myMemMalloc_zero]
  · simp only [myMemMalloc, if_neg h0, (scan_eq_none_iff (blocksFor_pos b h0)).mpr h]

theorem myMemMalloc_topmost {b : Bank} {s : BankState} {size : U32} {p : ℕ} (h0 : size ≠ 0)
    (h : Topmost b.memtblsize (ensureInit b s).memmap (blocksFor b size) p) :
    myMemMalloc b s size = (BitVec.ofNat 32 (p * b.memblksize),
      { ensureInit b s with
        memmap := fill (ensureInit b s).memmap p (BitVec.ofNat 32 (blocksFor b size))
          (blocksFor b size) }) := by
  simp only [myMemMalloc, if_neg h0, (scan_eq_some_iff (blocksFor_pos b h0)).mpr h]

theorem exists_topmost {N n p : ℕ} {map : ℕ → U32} (hpos : 0 < n) (h : FreeRun N map n p) :
    ∃ q, Topmost N map n q := by
  obtain ⟨q, hs, -⟩ := scan_of_freeRun (k := N) hpos h
  exact ⟨q, (scan_eq_some_iff hpos).mp hs⟩

/-- A request succeeds as soon as the table has a free run of its length. -/
theorem myMemMalloc_ne_of_freeRun {b : Bank} {s : BankState} {size : U32} {p : ℕ} (h0 : size ≠ 0)
    (h : FreeRun b.memtblsize (ensureInit b s).memmap (blocksFor b size) p) :
    (myMemMalloc b s size).1 ≠ 0xFFFFFFFF := by
  have hpos := blocksFor_pos b h0
  obtain ⟨q, hq⟩ := exists_topmost hpos h
  rw [myMemMalloc_topmost h0 hq]
  exact MallocResult.off_ne hpos hq.1.inside (toNat_offset b hpos hq.1.inside).1

structure Placed (b : Bank) (s : BankState) (n : ℕ) (off : U32) (s' : BankState) : Prop where
  topmost : Topmost b.memtblsize s.memmap n (off.toNat / b.memblksize)
  aligned : b.memblksize ∣ off.toNat
  marked : ∀ j, off.toNat / b.memblksize ≤ j → j < off.toNat / b.memblksize + n →
    (s'.memmap j).toNat = n
  frame : ∀ j, ¬ (off.toNat / b.memblksize ≤ j ∧ j < off.toNat / b.memblksize + n) →
    s'.memmap j = s.memmap j
  memrdy : s'.memrdy = s.memrdy

theorem placed_of_topmost {b : Bank} {s : BankState} {size : U32} {p : ℕ} (hr : s.memrdy ≠ 0)
    (h0 : size ≠ 0) (h : Topmost b.memtblsize s.memmap (blocksFor b size) p) :
    Placed b s (blocksFor b size) (myMemMalloc b s size).1 (myMemMalloc b s size).2 := by
  have hpos := blocksFor_pos b h0
  have hlt := blocks_lt h.1.inside
  have hoff := (toNat_offset b hpos h.1.inside).1
  have hidx : p * b.memblksize / b.memblksize = p := Nat.mul_div_cancel _ b.blk_pos
  rw [myMemMalloc_topmost h0 (by rwa [ensureInit_of_ready b hr]), ensureInit_of_ready b hr]
  constructor
  · rwa [hoff, hidx]
  · rw [hoff]
    exact Nat.dvd_mul_left _ _
  · intro j h1 h2
    rw [hoff, hidx] at h1 h2
    simp only
    rw [fill_inside _ _ h1 h2, BitVec.toNat_ofNat, Nat.mod_eq_of_lt (by omega)]
  · intro j hj
    rw [hoff, hidx] at hj
    exact fill_outside _ _ (by omega)
  · rfl

/-- A call on a ready bank fails, changing nothing, exactly when the size is zero or
no run of that many blocks is free; otherwise it takes the topmost such run. -/
theorem malloc_places_topmost (b : Bank) (s : BankState) (size : U32) (hr : s.memrdy ≠ 0) :
    ((myMemMalloc b s size).1 = 0xFFFFFFFF ↔
      size = 0 ∨ ∀ p, ¬ FreeRun b.memtblsize s.memmap (size.toNat ⌈/⌉ b.memblksize) p) ∧
    ((myMemMalloc b s size).1 = 0xFFFFFFFF → (myMemMalloc b s size).2 = s) ∧
    ((myMemMalloc b s size).1 ≠ 0xFFFFFFFF →
      Placed b s (size.toNat ⌈/⌉ b.memblksize) (myMemMalloc b s size).1 (myMemMalloc b s size).2) := by
  rw [← blocksFor_eq]
  have hready := ensureInit_of_ready b hr
  by_cases hno : size = 0 ∨ ∀ p, ¬ FreeRun b.memtblsize s.memmap (blocksFor b size) p
  · have hfail : myMemMalloc b s size = (0xFFFFFFFF, s) := by
      rcases hno with h0 | hnone
      · rw [h0, myMemMalloc_zero, hready]
      · rw [myMemMalloc_none (by rwa [hready]), hready]
    rw [hfail]
    exact ⟨⟨fun _ => hno, fun _ => rfl⟩, fun _ => rfl, fun h => absurd rfl h⟩
  · push Not at hno
    obtain ⟨h0, p, hp⟩ := hno
    obtain ⟨q, hq⟩ := exists_topmost (blocksFor_pos b h0) hp
    have hne := myMemMalloc_ne_of_freeRun (s := s) h0 (by rwa [hready])
    refine ⟨⟨fun h => absurd h hne, ?_⟩, fun h => absurd h hne, fun _ => placed_of_topmost hr h0 hq⟩
    rintro (h | h)
    · exact absurd h h0
    · exact absurd hp (h p)

/-- Cells 2 and 5 of the second bank in use: three blocks go to the top, fifteen nowhere. -/
theorem malloc_places_topmost_mem2 :
    let s : BankState := ⟨fun j => if j = 2 ∨ j = 5 then 1 else 0, 1⟩
    Placed mem2 s 3 (myMemMalloc mem2 s 192).1 (myMemMalloc mem2 s 192).2 ∧
      (myMemMalloc mem2 s 192).1 = 832 ∧ (myMemMalloc mem2 s 960).2 = s := by
  intro s
  have hr : s.memrdy ≠ 0 := by decide
  have h3 := (malloc_places_topmost mem2 s 192 hr).2.2 (by decide)
  have h15 := (malloc_places_topmost mem2 s 960 hr).2.1 (by decide)
  exact ⟨h3, by decide, h15⟩

end Stm32F407
