import Stm32F407.Proofs.MallocPlacement

/-! What `my_mem_free` does in a reachable state. On live offsets the order of
the calls does not matter, since the table that is left represents the live
allocations that remain. On other offsets it is safe exactly where the cell it
reads is zero or stands first in a live block. -/

namespace Stm32F407

open Lib

structure StaticInv (b : Bank) (h : Heap) : Prop where
  zero : h.bank.memrdy = 0 → ∀ j < b.memtblsize, h.bank.memmap j = 0
  rep : Represents b h.bank h.live

theorem Represents.congr {b : Bank} {s s' : BankState} {live : List Alloc}
    (h : Represents b s live) (heq : s'.memmap = s.memmap) : Represents b s' live where
  aligned := h.aligned
  tiling := h.tiling.congr fun j _ => by rw [BankState.cells, BankState.cells, heq]

/-- A live block holds its length, so a table of zeros has none. -/
theorem Represents.not_mem_of_zero {b : Bank} {s : BankState} {live : List Alloc} {a : Alloc}
    (h : Represents b s live) (hz : ∀ j < b.memtblsize, s.memmap j = 0) : a ∉ live := by
  intro ha
  have hblk : a.block b ∈ live.map (Alloc.block b) := List.mem_map_of_mem ha
  have hpos := h.tiling.pos _ hblk
  have hin := h.tiling.inside _ hblk
  have hmark := h.tiling.mark_start hblk
  rw [BankState.cells, hz _ (by omega)] at hmark
  have : (0 : U32).toNat = 0 := rfl
  omega

theorem StaticInv.heapInv {b : Bank} {h : Heap} (hinv : StaticInv b h) : HeapInv b h :=
  hinv.rep.congr (ensureInit_memmap hinv.zero)

theorem StaticInv.ready {b : Bank} {h : Heap} (hinv : StaticInv b h) {a : Alloc}
    (ha : a ∈ h.live) : h.bank.memrdy ≠ 0 :=
  fun hr => hinv.rep.not_mem_of_zero (hinv.zero hr) ha

theorem heapRun_static {b : Bank} {map : ℕ → U32} {ops : List HeapOp} {h : Heap}
    (hzero : ∀ j < b.memtblsize, map j = 0) (hrun : Run (HeapStep b) (Heap.start map) ops h) :
    StaticInv b h := by
  refine hrun.invariant ⟨fun _ => hzero, by simp [Heap.start], Tiling.nil fun j hj => ?_⟩ ?_
  · change (map j).toNat = 0
    rw [hzero j hj]
    rfl
  · intro s e s' hinv hs
    obtain ⟨hr, hrep⟩ := heapStep_represents hinv.heapInv (fun _ => hinv.ready) hs
    exact ⟨fun h0 => absurd h0 hr, hrep⟩

/-- In every reachable state the table represents the live allocations, and where
the first call is still to come it is a table of zeros. -/
theorem Reachable.staticInv {b : Bank} {h : Heap} (hr : Reachable b h) : StaticInv b h := by
  rcases hr with ⟨map, ops, hzero, hrun⟩ | ⟨map, ops, hfit, hne, hrun⟩
  · exact heapRun_static hzero hrun
  · cases hrun with
    | nil => exact absurd rfl hne
    | snoc hprev hs =>
      have hinv := heapRun_inv hfit hprev
      obtain ⟨hr, hrep⟩ := heapStep_represents hinv (fun _ => ready_of_live hfit hinv) hs
      exact ⟨fun h0 => absurd h0 hr, hrep⟩

theorem Reachable.snoc {b : Bank} {h h' : Heap} {op : HeapOp} (hr : Reachable b h)
    (hs : HeapStep b h op h') : Reachable b h' := by
  rcases hr with ⟨map, ops, hzero, hrun⟩ | ⟨map, ops, hfit, hne, hrun⟩
  · exact .static map _ hzero (hrun.snoc hs)
  · exact .cleared map _ hfit (by simp) (hrun.snoc hs)

def freeEach (b : Bank) (s : BankState) (l : List Alloc) : BankState :=
  l.foldl (fun s a => (myMemFree b s a.off).2) s

/-- What one call on a live offset leaves: the other allocations, and the cells
outside the table. -/
theorem myMemFree_step {b : Bank} {s : BankState} {a : Alloc} {live : List Alloc}
    (hr : s.memrdy ≠ 0) (hrep : Represents b s (a :: live)) :
    Represents b (myMemFree b s a.off).2 live ∧ (myMemFree b s a.off).2.memrdy = s.memrdy ∧
      ∀ j, b.memtblsize ≤ j → (myMemFree b s a.off).2.memmap j = s.memmap j := by
  refine ⟨myMemFree_represents hr hrep, ?_⟩
  have hin := hrep.tiling.inside (a.block b) (by simp)
  rw [myMemFree_live hr hrep List.mem_cons_self]
  exact ⟨rfl, fun j hj => fill_outside _ _ (by omega)⟩

theorem freeEach_represents {b : Bank} {s : BankState} {l rest : List Alloc}
    (hr : ∀ a ∈ l, s.memrdy ≠ 0) (hrep : Represents b s (l ++ rest)) :
    Represents b (freeEach b s l) rest ∧ (freeEach b s l).memrdy = s.memrdy ∧
      ∀ j, b.memtblsize ≤ j → (freeEach b s l).memmap j = s.memmap j := by
  induction l generalizing s with
  | nil => exact ⟨hrep, rfl, fun _ _ => rfl⟩
  | cons a l ih =>
    obtain ⟨hrep', hrdy, hout⟩ := myMemFree_step (hr a (by simp)) hrep
    obtain ⟨h1, h2, h3⟩ := ih (fun c hc => hrdy ▸ hr a (by simp)) hrep'
    exact ⟨h1, h2.trans hrdy, fun j hj => (h3 j hj).trans (hout j hj)⟩

/-- A cell of the table is nonzero exactly when it belongs to a live allocation. -/
theorem Represents.cell_ne_zero_iff {b : Bank} {s : BankState} {live : List Alloc}
    (h : Represents b s live) {j : ℕ} (hj : j < b.memtblsize) :
    s.memmap j ≠ 0 ↔ ∃ a ∈ live, j ∈ a.block b := by
  have hz : s.memmap j = 0 ↔ ∀ c ∈ live.map (Alloc.block b), j ∉ c := by
    rw [← h.tiling.zero_iff hj, BankState.cells]
    exact ⟨fun h0 => by rw [h0]; rfl, fun h0 => BitVec.eq_of_toNat_eq h0⟩
  rw [ne_eq, hz]
  simp only [List.mem_map, forall_exists_index, and_imp, forall_apply_eq_imp_iff₂]
  push Not
  rfl

theorem blocksFor_le {b : Bank} {size : U32} (h : size.toNat ≤ b.memsize) :
    blocksFor b size ≤ b.memtblsize := by
  rw [blocksFor_eq, ceilDiv_le_iff_le_mul b.blk_pos, Nat.mul_comm, ← b.size_eq]
  exact h

/-- With nothing live every request up to the size of the bank is served. -/
theorem malloc_of_empty {b : Bank} {s : BankState} {size : U32} (hinv : HeapInv b ⟨s, []⟩)
    (h1 : 1 ≤ size.toNat) (hle : size.toNat ≤ b.memsize) :
    (myMemMalloc b s size).1 ≠ 0xFFFFFFFF := by
  have hblocks := blocksFor_le hle
  have h0 : size ≠ 0 := by
    rintro rfl
    exact absurd h1 (by decide)
  apply myMemMalloc_ne_of_freeRun (p := 0) h0
  refine ⟨by omega, fun j _ hj => ?_⟩
  by_contra hne
  have hcell := (Represents.cell_ne_zero_iff hinv (j := j) (by omega)).mp hne
  simp at hcell

/-- A block that has just been allocated covers free cells, so freeing it restores them. -/
theorem free_malloc {b : Bank} {h : Heap} (hinv : StaticInv b h) {size : U32}
    (hok : (myMemMalloc b h.bank size).1 ≠ 0xFFFFFFFF) :
    (myMemFree b (myMemMalloc b h.bank size).2 (myMemMalloc b h.bank size).1).2.memmap =
      h.bank.memmap := by
  have hstep := HeapStep.malloc (b := b) h size
  obtain ⟨hr, hrep⟩ := heapStep_represents hinv.heapInv (fun _ => hinv.ready) hstep
  have hmap := ensureInit_memmap hinv.zero
  generalize hres : myMemMalloc b h.bank size = r at *
  have hr' := myMemMalloc_result b h.bank size
  rw [hres] at hr'
  rw [liveAfter, if_neg hok] at hrep
  rw [myMemFree_live hr hrep List.mem_cons_self]
  obtain ⟨off, s'⟩ := r
  simp only at hr' hok ⊢
  cases hr' with
  | fail => exact absurd rfl hok
  | found p _ hpos hin hfree hoff =>
    have hblock : Alloc.block b ⟨off, size⟩ = ⟨p, blocksFor b size⟩ := by
      rw [Alloc.block, hoff, Nat.mul_div_cancel _ b.blk_pos, blocksFor_eq]
    funext j
    rw [hblock, ← hmap]
    simp only [fill_apply]
    split_ifs with hj
    · exact (hfree j hj.1 hj.2).symm
    · rfl

/-- Freeing live allocations in two orders leaves the same table, in which exactly the
cells of the others are used; freeing all leaves an empty bank; and a `my_mem_malloc`
is undone by the `my_mem_free` of its result. -/
theorem free_order_independent (b : Bank) (h : Heap) (hr : Reachable b h) :
    (∀ l l' rest : List Alloc, (l ++ rest).Perm h.live → l.Perm l' →
      (freeEach b h.bank l).memmap = (freeEach b h.bank l').memmap ∧
      ∀ j < b.memtblsize, (freeEach b h.bank l).memmap j ≠ 0 ↔ ∃ a ∈ rest, j ∈ a.block b) ∧
    (∀ l : List Alloc, l.Perm h.live →
      (∀ j < b.memtblsize, (freeEach b h.bank l).memmap j = 0) ∧
      ∀ size : U32, 1 ≤ size.toNat → size.toNat ≤ b.memsize →
        (myMemMalloc b (freeEach b h.bank l) size).1 ≠ 0xFFFFFFFF) ∧
    (∀ size : U32, (myMemMalloc b h.bank size).1 ≠ 0xFFFFFFFF →
      (myMemFree b (myMemMalloc b h.bank size).2 (myMemMalloc b h.bank size).1).2.memmap =
        h.bank.memmap) := by
  have hinv := hr.staticInv
  have hfree : ∀ l rest : List Alloc, (l ++ rest).Perm h.live →
      Represents b (freeEach b h.bank l) rest ∧ (freeEach b h.bank l).memrdy = h.bank.memrdy ∧
        ∀ j, b.memtblsize ≤ j → (freeEach b h.bank l).memmap j = h.bank.memmap j := by
    intro l rest hp
    refine freeEach_represents (fun a ha => ?_) (hinv.rep.perm hp.symm)
    exact hinv.ready (hp.mem_iff.mp (List.mem_append_left _ ha))
  refine ⟨fun l l' rest hp hll => ?_, fun l hp => ?_, fun size => free_malloc hinv⟩
  · obtain ⟨hrep, -, hout⟩ := hfree l rest hp
    obtain ⟨hrep', -, hout'⟩ := hfree l' rest ((hll.symm.append_right rest).trans hp)
    refine ⟨funext fun j => ?_, fun j hj => hrep.cell_ne_zero_iff hj⟩
    rcases Nat.lt_or_ge j b.memtblsize with hj | hj
    · exact hrep'.cells_unique hrep hj
    · rw [hout j hj, hout' j hj]
  · obtain ⟨hrep, -, -⟩ := hfree l [] (by simpa using hp)
    have hz : ∀ j < b.memtblsize, (freeEach b h.bank l).memmap j = 0 := by
      intro j hj
      by_contra hne
      simpa using (hrep.cell_ne_zero_iff hj).mp hne
    have hempty : StaticInv b ⟨freeEach b h.bank l, []⟩ := ⟨fun _ => hz, hrep⟩
    exact ⟨hz, fun size h1 hle => malloc_of_empty hempty.heapInv h1 hle⟩

/-- Two requests on the second bank, freed in both orders. -/
theorem free_order_independent_mem2 :
    ∃ h, Reachable mem2 h ∧ h.live = [⟨832, 128⟩, ⟨960, 64⟩] ∧
      (freeEach mem2 h.bank [⟨832, 128⟩, ⟨960, 64⟩]).memmap =
        (freeEach mem2 h.bank [⟨960, 64⟩, ⟨832, 128⟩]).memmap := by
  obtain ⟨h, hr, hlive⟩ : ∃ h, Reachable mem2 h ∧ h.live = [⟨832, 128⟩, ⟨960, 64⟩] := by
    have hs : HeapStep mem2 _ _ _ := .malloc (Heap.start fun _ => 0) 64
    have hr : Reachable mem2 _ := .static (fun _ => 0) _ (fun _ _ => rfl) (Run.single hs)
    exact ⟨_, hr.snoc (.malloc _ 128), by decide⟩
  refine ⟨h, hr, hlive, ?_⟩
  exact ((free_order_independent mem2 h hr).1 _ _ [] (by simp [hlive]) (List.Perm.swap _ _ _)).1

theorem myMemSet_frame {map : ℕ → U32} {c : U8} {n j : ℕ} (h : ∀ i < n, i / 4 ≠ j) :
    myMemSet map c n j = map j := by
  induction n with
  | zero => rfl
  | succ n ih =>
    simp only [myMemSet]
    rw [Function.update_of_ne (h n (by omega)).symm]
    exact ih fun i hi => h i (by omega)

/-- A call changes no cell that it does not write. -/
theorem myMemFree_frame {b : Bank} {s : BankState} {offset : U32} {j : ℕ}
    (h : j ∉ myMemFreeWrites b s offset) : (myMemFree b s offset).2.memmap j = s.memmap j := by
  unfold myMemFreeWrites at h
  unfold myMemFree
  split_ifs at h ⊢ with hr hoff
  · apply myMemSet_frame
    intro i hi heq
    exact h (List.mem_map.mpr ⟨i, List.mem_range.mpr hi, heq⟩)
  · rw [List.mem_range'_1] at h
    exact fill_outside _ _ (by omega)
  · rfl

/-- The call fails and changes nothing, or it succeeds and clears nothing or one live
allocation; it writes only cells of the table. -/
structure FreeSafe (b : Bank) (h : Heap) (offset : U32) : Prop where
  outcome : ((myMemFree b h.bank offset).1 ≠ 0 ∧
      (myMemFree b h.bank offset).2.memmap = h.bank.memmap) ∨
    ((myMemFree b h.bank offset).1 = 0 ∧
      ((myMemFree b h.bank offset).2.memmap = h.bank.memmap ∨
        ∃ a ∈ h.live, (myMemFree b h.bank offset).2.memmap =
          fill h.bank.memmap (a.block b).start 0 (a.block b).len))
  writes : ∀ j ∈ myMemFreeWrites b h.bank offset, j < b.memtblsize

theorem myMemFree_inside {b : Bank} {s : BankState} {offset : U32} (hr : s.memrdy ≠ 0)
    (hoff : offset.toNat < b.memsize) :
    (myMemFree b s offset).1 = 0 ∧
    (myMemFree b s offset).2.memmap = fill s.memmap (offset.toNat / b.memblksize) 0
      (s.memmap (offset.toNat / b.memblksize)).toInt.toNat ∧
    myMemFreeWrites b s offset = List.range' (offset.toNat / b.memblksize)
      (s.memmap (offset.toNat / b.memblksize)).toInt.toNat := by
  simp only [myMemFree, myMemFreeWrites, if_neg hr, if_pos hoff, and_self]

theorem myMemFree_outside {b : Bank} {s : BankState} {offset : U32} (hr : s.memrdy ≠ 0)
    (hoff : b.memsize ≤ offset.toNat) :
    myMemFree b s offset = (2, s) ∧ myMemFreeWrites b s offset = [] := by
  simp only [myMemFree, myMemFreeWrites, if_neg hr, if_neg (Nat.not_lt.mpr hoff), and_self]

/-- In a represented table the run length read from a cell is that of its block. -/
theorem Represents.runLength {b : Bank} {s : BankState} {live : List Alloc} {a : Alloc} {j : ℕ}
    (h : Represents b s live) (ha : a ∈ live) (hj : j ∈ a.block b) :
    (s.memmap j).toInt.toNat = (a.block b).len := by
  have hblk : a.block b ∈ live.map (Alloc.block b) := List.mem_map_of_mem ha
  have hmark : (s.memmap j).toNat = (a.block b).len := h.tiling.mark _ hblk j hj
  have hlen := blocks_lt (h.tiling.inside _ hblk)
  rw [BitVec.toInt_eq_toNat_of_lt (by omega), hmark, Int.toNat_natCast]

theorem freeSafe_of_start {b : Bank} {h : Heap} {a : Alloc} {offset : U32}
    (hr : h.bank.memrdy ≠ 0) (hrep : Represents b h.bank h.live) (hoff : offset.toNat < b.memsize)
    (ha : a ∈ h.live) (hstart : (a.block b).start = offset.toNat / b.memblksize) :
    FreeSafe b h offset := by
  have hblk : a.block b ∈ h.live.map (Alloc.block b) := List.mem_map_of_mem ha
  have hpos := hrep.tiling.pos _ hblk
  have hin := hrep.tiling.inside _ hblk
  have hlen := hrep.runLength ha (j := (a.block b).start) ⟨le_rfl, by omega⟩
  obtain ⟨h0, hmap, hw⟩ := myMemFree_inside hr hoff
  rw [← hstart, hlen] at hmap hw
  refine ⟨Or.inr ⟨h0, Or.inr ⟨a, ha, hmap⟩⟩, fun j hj => ?_⟩
  rw [hw, List.mem_range'_1] at hj
  omega

/-- Inside a live block but not at its start, the call clears a run that leaves the
first cell of the block in use. -/
theorem not_freeSafe_of_interior {b : Bank} {h : Heap} {a : Alloc} {offset : U32}
    (hr : h.bank.memrdy ≠ 0) (hrep : Represents b h.bank h.live) (hoff : offset.toNat < b.memsize)
    (ha : a ∈ h.live) (hmem : offset.toNat / b.memblksize ∈ a.block b)
    (hne : (a.block b).start ≠ offset.toNat / b.memblksize) : ¬ FreeSafe b h offset := by
  intro hsafe
  have hblk : a.block b ∈ h.live.map (Alloc.block b) := List.mem_map_of_mem ha
  have hpos := hrep.tiling.pos _ hblk
  obtain ⟨h0, hmap, -⟩ := myMemFree_inside hr hoff
  rw [hrep.runLength ha hmem] at hmap
  set i := offset.toNat / b.memblksize with hi
  have hcell : h.bank.memmap i ≠ 0 :=
    (hrep.cell_ne_zero_iff (index_lt hoff)).mpr ⟨a, ha, hmem⟩
  have hcleared : (myMemFree b h.bank offset).2.memmap i = 0 := by
    rw [hmap, fill_inside _ _ le_rfl (by omega)]
  have hstart : (myMemFree b h.bank offset).2.memmap (a.block b).start =
      h.bank.memmap (a.block b).start := by
    rw [Block.mem_iff] at hmem
    rw [hmap, fill_outside _ _ (by omega)]
  rcases hsafe.outcome with ⟨h1, -⟩ | ⟨-, hsame | ⟨c, hc, hclears⟩⟩
  · exact h1 h0
  · exact hcell (by rw [← hsame, hcleared])
  · -- The block cleared holds cell `i`, so it is the block of `a`, whose start is kept.
    have hic : i ∈ c.block b := by
      by_contra hout
      rw [Block.mem_iff] at hout
      rw [hclears, fill_outside _ _ (by omega)] at hcleared
      exact hcell hcleared
    have heq : c.block b = a.block b :=
      hrep.tiling.eq_of_mem (List.mem_map_of_mem hc) hblk hic hmem
    rw [hclears, heq, fill_inside _ _ le_rfl (by omega)] at hstart
    have hmark := hrep.tiling.mark_start hblk
    rw [BankState.cells, ← hstart] at hmark
    have : (0 : U32).toNat = 0 := rfl
    omega

theorem freeSafe_of_represents {b : Bank} {h : Heap} (hr : h.bank.memrdy ≠ 0)
    (hrep : Represents b h.bank h.live) (offset : U32) :
    FreeSafe b h offset ↔ b.memsize ≤ offset.toNat ∨
      h.bank.memmap (offset.toNat / b.memblksize) = 0 ∨
      ∃ a ∈ h.live, (a.block b).start = offset.toNat / b.memblksize := by
  rcases Nat.lt_or_ge offset.toNat b.memsize with hoff | hoff
  · by_cases hcell : h.bank.memmap (offset.toNat / b.memblksize) = 0
    · refine ⟨fun _ => Or.inr (Or.inl hcell), fun _ => ?_⟩
      obtain ⟨h0, hmap, hw⟩ := myMemFree_inside hr hoff
      rw [hcell] at hmap hw
      exact ⟨Or.inr ⟨h0, Or.inl hmap⟩, by simp [hw]⟩
    · obtain ⟨a, ha, hmem⟩ := (hrep.cell_ne_zero_iff (index_lt hoff)).mp hcell
      constructor
      · intro hsafe
        by_contra hno
        refine not_freeSafe_of_interior hr hrep hoff ha hmem (fun hs => hno ?_) hsafe
        exact Or.inr (Or.inr ⟨a, ha, hs⟩)
      · rintro (h1 | h1 | ⟨c, hc, hs⟩)
        · omega
        · exact absurd h1 hcell
        · exact freeSafe_of_start hr hrep hoff hc hs
  · obtain ⟨hres, hw⟩ := myMemFree_outside hr hoff
    refine ⟨fun _ => Or.inl hoff, fun _ => ⟨Or.inl ?_, by simp [hw]⟩⟩
    rw [hres]
    exact ⟨show (2 : U8) ≠ 0 by decide, rfl⟩

/-- In a reachable state a call on any offset is safe exactly when the offset is outside
the bank, or the cell it maps to is free, or it lies in the first block of a live
allocation. -/
theorem freeSafe_iff (b : Bank) (h : Heap) (hr : Reachable b h) (hready : h.bank.memrdy ≠ 0)
    (offset : U32) :
    FreeSafe b h offset ↔ b.memsize ≤ offset.toNat ∨
      h.bank.memmap (offset.toNat / b.memblksize) = 0 ∨
      ∃ a ∈ h.live, (a.block b).start = offset.toNat / b.memblksize :=
  freeSafe_of_represents hready hr.staticInv.rep offset

/-- After a request for two blocks, freeing the first of them is safe. -/
theorem freeSafe_iff_mem2 : ∃ h, Reachable mem2 h ∧ FreeSafe mem2 h 896 := by
  have hs : HeapStep mem2 _ _ _ := .malloc (Heap.start fun _ => 0) 128
  have hr : Reachable mem2 _ := .static (fun _ => 0) _ (fun _ _ => rfl) (Run.single hs)
  refine ⟨_, hr, (freeSafe_iff mem2 _ hr (by decide) 896).mpr (Or.inr (Or.inr ?_))⟩
  exact ⟨⟨896, 128⟩, by decide, by decide⟩

/-- Freeing the second of the two blocks clears only that one and writes index 16 of a
table of 16 entries. -/
theorem not_freeSafe :
    ¬ ∀ (b : Bank) (h : Heap), Reachable b h → h.bank.memrdy ≠ 0 →
      ∀ offset : U32, FreeSafe b h offset := by
  intro hall
  have hs : HeapStep mem2 _ _ _ := .malloc (Heap.start fun _ => 0) 128
  have hr : Reachable mem2 _ := .static (fun _ => 0) _ (fun _ _ => rfl) (Run.single hs)
  have hsafe := hall mem2 _ hr (by decide) 960
  exact absurd (hsafe.writes 16 (by decide)) (by decide)

end Stm32F407
