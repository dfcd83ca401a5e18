import Stm32F407.Spec.Malloc

/-! The table of a bank represents its live allocations after every step of
every history, whatever the table held at power-up. The scan, the fill and the
clear each get one specification lemma; the history theorem uses only those. -/

namespace Stm32F407

open Lib

/-- The address of a byte of a bank is not NULL. -/
theorem base_add_ne {base off : U32} {size : ℕ} (hbase : base ≠ 0)
    (hfits : base.toNat + size ≤ 2 ^ 32) (h : off.toNat < size) : base + off ≠ 0 := by
  intro h0
  have hb : base.toNat ≠ 0 := fun hz => hbase (BitVec.eq_of_toNat_eq hz)
  have hz : (base + off).toNat = 0 := by rw [h0]; rfl
  rw [BitVec.toNat_add, Nat.mod_eq_of_lt (by omega)] at hz
  omega

theorem setByte_zero (w : U32) (k : ℕ) : setByte w k 0 = w &&& ~~~((0xFF : U32) <<< (8 * k)) := by
  simp [setByte]

theorem setByte_word (w : U32) : setByte (setByte (setByte (setByte w 0 0) 1 0) 2 0) 3 0 = 0 := by
  have hmask : ~~~((0xFF : U32) <<< (8 * 0)) &&& (~~~((0xFF : U32) <<< (8 * 1)) &&&
      (~~~((0xFF : U32) <<< (8 * 2)) &&& ~~~((0xFF : U32) <<< (8 * 3)))) = 0 := by decide
  simp only [setByte_zero, BitVec.and_assoc]
  rw [hmask]
  exact BitVec.and_zero

/-- Four bytes at a time, `my_mem_set` with zero clears whole cells. -/
theorem myMemSet_zero (map : ℕ → U32) (n : ℕ) : myMemSet map 0 (4 * n) = fill map 0 0 n := by
  induction n with
  | zero => rfl
  | succ n ih =>
    simp only [Nat.mul_add, Nat.mul_one, myMemSet, fill, Nat.zero_add, ih,
      show (4 * n + 1) / 4 = n by omega, show (4 * n + 2) / 4 = n by omega,
      show (4 * n + 3) / 4 = n by omega, show 4 * n / 4 = n by omega,
      show (4 * n + 1) % 4 = 1 by omega, show (4 * n + 2) % 4 = 2 by omega,
      show (4 * n + 3) % 4 = 3 by omega, show 4 * n % 4 = 0 by omega,
      Function.update_self, Function.update_idem, setByte_word]

/-- The byte count of `my_mem_init` does not wrap, so the whole table is cleared. -/
theorem myMemInit_memmap (b : Bank) (s : BankState) (hfit : b.memtblsize < 2 ^ 30) :
    (myMemInit b s).memmap = fill s.memmap 0 0 b.memtblsize := by
  have hlt : b.memtblsize * 4 < 2 ^ 32 := by omega
  rw [myMemInit, BitVec.toNat_ofNat, Nat.mod_eq_of_lt hlt, Nat.mul_comm]
  exact myMemSet_zero s.memmap b.memtblsize

theorem setByte_of_zero (k : ℕ) : setByte 0 k 0 = 0 := by
  rw [setByte_zero]
  exact BitVec.zero_and

/-- `my_mem_set` with zero changes nothing where the cells are zero already. -/
theorem myMemSet_of_zero {map : ℕ → U32} {N n : ℕ} (hz : ∀ j < N, map j = 0) (hn : n ≤ 4 * N) :
    myMemSet map 0 n = map := by
  induction n with
  | zero => rfl
  | succ n ih =>
    have hcell : map (n / 4) = 0 := hz _ (by omega)
    simp only [myMemSet, ih (by omega), hcell, setByte_of_zero]
    rw [← hcell, Function.update_eq_self]

/-- Clearing a table of zeros changes nothing, whatever its size. -/
theorem ensureInit_memmap {b : Bank} {s : BankState}
    (hzero : s.memrdy = 0 → ∀ j < b.memtblsize, s.memmap j = 0) :
    (ensureInit b s).memmap = s.memmap := by
  unfold ensureInit
  split_ifs with hr
  · apply myMemSet_of_zero (hzero hr)
    rw [BitVec.toNat_ofNat, Nat.mul_comm]
    exact Nat.mod_le _ _
  · rfl

theorem myMemInit_represents (b : Bank) (s : BankState) (hfit : b.memtblsize < 2 ^ 30) :
    Represents b (myMemInit b s) [] where
  aligned := by simp
  tiling := Tiling.nil fun j hj => by
    rw [BankState.cells, myMemInit_memmap b s hfit, fill_inside _ _ (Nat.zero_le j) (by omega)]
    rfl

theorem ensureInit_memrdy (b : Bank) (s : BankState) : (ensureInit b s).memrdy ≠ 0 := by
  unfold ensureInit
  split_ifs with h
  · simp [myMemInit]
  · exact h

theorem ensureInit_of_ready (b : Bank) {s : BankState} (h : s.memrdy ≠ 0) : ensureInit b s = s :=
  if_neg h

/-- A hit of the scan starts a run of `nmemb` free cells. The `cmemb` cells from
`k` on are the free cells the scan has just passed. -/
theorem scan_some {map : ℕ → U32} {nmemb k cmemb p : ℕ} (hc : cmemb < nmemb)
    (hrun : ∀ j, k ≤ j → j < k + cmemb → map j = 0) (h : scan map nmemb k cmemb = some p) :
    p + nmemb ≤ k + cmemb ∧ ∀ j, p ≤ j → j < p + nmemb → map j = 0 := by
  induction k generalizing cmemb with
  | zero => simp [scan] at h
  | succ k ih =>
    set c := if map k = 0 then cmemb + 1 else 0 with hcdef
    have hle : c ≤ cmemb + 1 := by rw [hcdef]; split_ifs <;> omega
    have hrun' : ∀ j, k ≤ j → j < k + c → map j = 0 := by
      intro j h1 h2
      rw [hcdef] at h2
      split_ifs at h2 with hz
      · rcases Nat.eq_or_lt_of_le h1 with rfl | h1
        · exact hz
        · exact hrun j h1 (by omega)
      · omega
    change (if c = nmemb then some k else scan map nmemb k c) = some p at h
    split_ifs at h with hhit
    · obtain rfl : k = p := by simpa using h
      rw [hhit] at hle hrun'
      exact ⟨by omega, hrun'⟩
    · have := ih (by omega) hrun' h
      exact ⟨by omega, this.2⟩

theorem scan_congr {map map' : ℕ → U32} {nmemb k : ℕ} (h : ∀ j < k, map j = map' j) (cmemb : ℕ) :
    scan map nmemb k cmemb = scan map' nmemb k cmemb := by
  induction k generalizing cmemb with
  | zero => rfl
  | succ k ih =>
    simp only [scan, h k (Nat.lt_succ_self k)]
    rw [ih fun j hj => h j (Nat.lt_succ_of_lt hj)]

theorem blocksFor_eq (b : Bank) (size : U32) : blocksFor b size = size.toNat ⌈/⌉ b.memblksize := by
  rw [Nat.ceilDiv_eq_add_pred_div, blocksFor]
  have hB := b.blk_pos
  obtain ⟨q, r, hr, hq⟩ : ∃ q r, r < b.memblksize ∧ size.toNat = b.memblksize * q + r :=
    ⟨_, _, Nat.mod_lt _ hB, (Nat.div_add_mod _ _).symm⟩
  rw [hq, Nat.mul_add_mod, Nat.mod_eq_of_lt hr, Nat.mul_add_div hB, Nat.div_eq_of_lt hr,
    show b.memblksize * q + r + b.memblksize - 1 = b.memblksize * q + (r + (b.memblksize - 1)) by
      omega, Nat.mul_add_div hB, Nat.add_zero]
  split_ifs with h0
  · rw [h0, Nat.zero_add, Nat.div_eq_of_lt (by omega)]
  · rw [show r + (b.memblksize - 1) = b.memblksize * 1 + (r - 1) by omega, Nat.mul_add_div hB,
      Nat.div_eq_of_lt (by omega)]

theorem blocksFor_pos (b : Bank) {size : U32} (h : size ≠ 0) : 0 < blocksFor b size := by
  have hs : 0 < size.toNat := by
    rw [Nat.pos_iff_ne_zero]
    intro h0
    exact h (BitVec.eq_of_toNat_eq (by simpa using h0))
  rw [blocksFor]
  split_ifs with hm
  · exact Nat.div_pos (Nat.le_of_dvd hs (Nat.dvd_of_mod_eq_zero hm)) b.blk_pos
  · exact Nat.succ_pos _

theorem memtblsize_le (b : Bank) : b.memtblsize ≤ b.memsize := by
  rw [b.size_eq]
  exact Nat.le_mul_of_pos_right _ b.blk_pos

/-- A number of blocks that fits the table fits an `int`. -/
theorem blocks_lt {b : Bank} {p n : ℕ} (h : p + n ≤ b.memtblsize) : n < 2 ^ 31 := by
  have := memtblsize_le b
  have := b.size_lt
  omega

/-- An offset inside the bank is not the failure value and does not wrap. -/
theorem toNat_offset (b : Bank) {p n : ℕ} (hn : 0 < n) (hp : p + n ≤ b.memtblsize) :
    (BitVec.ofNat 32 (p * b.memblksize) : U32).toNat = p * b.memblksize ∧
      p * b.memblksize < b.memsize := by
  have hlt : p * b.memblksize < b.memtblsize * b.memblksize :=
    Nat.mul_lt_mul_of_pos_right (by omega) b.blk_pos
  have hsize := b.size_lt
  rw [b.size_eq] at hsize ⊢
  exact ⟨by rw [BitVec.toNat_ofNat, Nat.mod_eq_of_lt (by omega)], hlt⟩

theorem index_lt {b : Bank} {offset : U32} (hoff : offset.toNat < b.memsize) :
    offset.toNat / b.memblksize < b.memtblsize := by
  rw [b.size_eq] at hoff
  exact Nat.div_lt_of_lt_mul (by rwa [Nat.mul_comm])

inductive MallocResult (b : Bank) (s : BankState) (size : U32) : U32 → BankState → Prop
  | fail : MallocResult b s size 0xFFFFFFFF s
  | found (p : ℕ) (off : U32) (hpos : 0 < blocksFor b size)
      (hin : p + blocksFor b size ≤ b.memtblsize)
      (hfree : ∀ j, p ≤ j → j < p + blocksFor b size → s.memmap j = 0)
      (hoff : off.toNat = p * b.memblksize) :
      MallocResult b s size off
        { s with memmap := fill s.memmap p (BitVec.ofNat 32 (blocksFor b size)) (blocksFor b size) }

theorem myMemMalloc_result (b : Bank) (s : BankState) (size : U32) :
    MallocResult b (ensureInit b s) size (myMemMalloc b s size).1 (myMemMalloc b s size).2 := by
  unfold myMemMalloc
  simp only
  split_ifs with hsize
  · exact .fail
  cases hscan : scan (ensureInit b s).memmap (blocksFor b size) b.memtblsize 0 with
  | none => exact .fail
  | some p =>
    have hpos := blocksFor_pos b hsize
    obtain ⟨hin, hfree⟩ := scan_some hpos (by omega) hscan
    exact .found p _ hpos (by omega) hfree (toNat_offset b hpos (by omega)).1

/-- The offset of a found run is never the failure value. -/
theorem MallocResult.off_ne {b : Bank} {p : ℕ} {n : ℕ} {off : U32} (hn : 0 < n)
    (hin : p + n ≤ b.memtblsize) (hoff : off.toNat = p * b.memblksize) : off ≠ 0xFFFFFFFF := by
  rintro rfl
  have h := (toNat_offset b hn hin).2
  have hlt := b.size_lt
  rw [← hoff] at h
  exact absurd (h.trans hlt) (by decide)

theorem MallocResult.represents {b : Bank} {s s' : BankState} {size off : U32} {live : List Alloc}
    (h : MallocResult b s size off s') (hrep : Represents b s live) :
    Represents b s' (liveAfter live off size) := by
  cases h with
  | fail => simpa [liveAfter] using hrep
  | found p _ hpos hin hfree hoff =>
    rw [liveAfter, if_neg (MallocResult.off_ne hpos hin hoff)]
    have hblock : Alloc.block b ⟨off, size⟩ = ⟨p, blocksFor b size⟩ := by
      rw [Alloc.block, hoff, Nat.mul_div_cancel _ b.blk_pos, blocksFor_eq]
    have hlt := blocks_lt hin
    constructor
    · simpa [hoff] using hrep.aligned
    · rw [List.map_cons, hblock]
      refine hrep.tiling.add hpos hin ?_ ?_ ?_
      · intro j hj
        simp [BankState.cells, hfree j hj.1 hj.2]
      · intro j hj
        simp only [BankState.cells, fill_inside _ _ hj.1 hj.2, BitVec.toNat_ofNat]
        exact Nat.mod_eq_of_lt (by omega)
      · intro j hj
        rw [Block.mem_iff] at hj
        simp only [BankState.cells]
        rw [fill_outside _ _ (by simp only at hj; omega)]

theorem Represents.off_lt {b : Bank} {s : BankState} {live : List Alloc} {a : Alloc}
    (hrep : Represents b s live) (ha : a ∈ live) : a.off.toNat < b.memsize := by
  have hmem : a.block b ∈ live.map (Alloc.block b) := List.mem_map_of_mem ha
  have hin := hrep.tiling.inside _ hmem
  have hpos := hrep.tiling.pos _ hmem
  obtain ⟨q, hq⟩ := hrep.aligned a ha
  have hstart : (a.block b).start = q := by
    rw [Alloc.block, hq, Nat.mul_div_cancel_left _ b.blk_pos]
  rw [hq, Nat.mul_comm, b.size_eq]
  exact Nat.mul_lt_mul_of_pos_right (by omega) b.blk_pos

/-- On a represented table `my_mem_free` of a live offset clears exactly its block. -/
theorem myMemFree_live {b : Bank} {s : BankState} {live : List Alloc} {a : Alloc}
    (hr : s.memrdy ≠ 0) (hrep : Represents b s live) (ha : a ∈ live) :
    myMemFree b s a.off =
      (0, { s with memmap := fill s.memmap (a.block b).start 0 (a.block b).len }) := by
  have hmem : a.block b ∈ live.map (Alloc.block b) := List.mem_map_of_mem ha
  have hin := hrep.tiling.inside _ hmem
  have hmark : (s.memmap (a.block b).start).toNat = (a.block b).len :=
    hrep.tiling.mark_start hmem
  have hlen := blocks_lt hin
  have hint : (s.memmap (a.block b).start).toInt.toNat = (a.block b).len := by
    rw [BitVec.toInt_eq_toNat_of_lt (by omega), hmark, Int.toNat_natCast]
  rw [myMemFree, if_neg hr, if_pos (hrep.off_lt ha)]
  simp only [← hint]
  rfl

theorem Represents.perm {b : Bank} {s : BankState} {live live' : List Alloc}
    (h : Represents b s live) (hp : live.Perm live') : Represents b s live' where
  aligned a ha := h.aligned a (hp.mem_iff.mpr ha)
  tiling := h.tiling.perm (hp.map (Alloc.block b))

theorem myMemFree_represents {b : Bank} {s : BankState} {live : List Alloc} {a : Alloc}
    (hr : s.memrdy ≠ 0) (hrep : Represents b s (a :: live)) :
    Represents b (myMemFree b s a.off).2 live := by
  rw [myMemFree_live hr hrep (List.mem_cons_self)]
  refine ⟨fun c hc => hrep.aligned c (List.mem_cons_of_mem _ hc), ?_⟩
  refine hrep.tiling.remove ?_ ?_
  · intro j hj
    simp [BankState.cells, fill_inside _ _ hj.1 hj.2]
  · intro j hj
    rw [Block.mem_iff] at hj
    simp only [BankState.cells]
    rw [fill_outside _ _ (by omega)]

/-- The table, cleared if that is still to be done, represents the live allocations. -/
def HeapInv (b : Bank) (h : Heap) : Prop := Represents b (ensureInit b h.bank) h.live

theorem MallocResult.memrdy {b : Bank} {s s' : BankState} {size off : U32}
    (h : MallocResult b s size off s') : s'.memrdy = s.memrdy := by
  cases h <;> rfl

/-- Nothing is live in a bank that is not ready. -/
theorem ready_of_live {b : Bank} (hfit : b.memtblsize < 2 ^ 30) {s : BankState} {live : List Alloc}
    (hrep : Represents b (ensureInit b s) live) {a : Alloc} (ha : a ∈ live) : s.memrdy ≠ 0 := by
  intro hr
  rw [ensureInit, if_pos hr] at hrep
  have hblk : a.block b ∈ live.map (Alloc.block b) := List.mem_map_of_mem ha
  have hpos := hrep.tiling.pos _ hblk
  have hin := hrep.tiling.inside _ hblk
  have hmark := hrep.tiling.mark_start hblk
  have hzero := (myMemInit_represents b s hfit).tiling.rest (a.block b).start (by omega) (by simp)
  omega

/-- Every step leaves a ready bank whose table represents the live allocations. -/
theorem heapStep_represents {b : Bank} {h h' : Heap} {op : HeapOp} (hinv : HeapInv b h)
    (hready : ∀ a ∈ h.live, h.bank.memrdy ≠ 0) (hs : HeapStep b h op h') :
    h'.bank.memrdy ≠ 0 ∧ Represents b h'.bank h'.live := by
  cases hs with
  | malloc size =>
    have hres := myMemMalloc_result b h.bank size
    exact ⟨by rw [hres.memrdy]; exact ensureInit_memrdy b h.bank, hres.represents hinv⟩
  | free a ha =>
    have hr := hready a ha
    rw [HeapInv, ensureInit_of_ready b hr] at hinv
    exact ⟨by rwa [myMemFree_live hr hinv ha],
      myMemFree_represents hr (hinv.perm (List.perm_cons_erase ha))⟩

theorem heapRun_inv {b : Bank} (hfit : b.memtblsize < 2 ^ 30) {map : ℕ → U32} {ops : List HeapOp}
    {h : Heap} (hrun : Run (HeapStep b) (Heap.start map) ops h) : HeapInv b h := by
  refine hrun.invariant (myMemInit_represents b _ hfit) fun s e s' hinv hs => ?_
  obtain ⟨hr, hrep⟩ := heapStep_represents hinv (fun _ => ready_of_live hfit hinv) hs
  rwa [HeapInv, ensureInit_of_ready b hr]

/-- The live allocations determine the table. -/
theorem Represents.cells_unique {b : Bank} {s s' : BankState} {live : List Alloc}
    (h : Represents b s live) (h' : Represents b s' live) {j : ℕ} (hj : j < b.memtblsize) :
    s'.memmap j = s.memmap j := by
  apply BitVec.eq_of_toNat_eq
  change s'.cells j = s.cells j
  by_cases hout : ∀ c ∈ live.map (Alloc.block b), j ∉ c
  · rw [h.tiling.rest j hj hout, h'.tiling.rest j hj hout]
  · push Not at hout
    obtain ⟨c, hc, hjc⟩ := hout
    rw [h.tiling.mark c hc j hjc, h'.tiling.mark c hc j hjc]

/-- Two live allocations at one offset are one allocation. -/
theorem Represents.eq_of_off {b : Bank} {s : BankState} {live : List Alloc}
    (h : Represents b s live) {a c : Alloc} (ha : a ∈ live) (hc : c ∈ live) (hoff : a.off = c.off) :
    a = c := by
  by_contra hne
  have hap := (List.pairwise_map.mp h.tiling.apart).forall ha hc hne
  have hpa := h.tiling.pos _ (List.mem_map_of_mem ha)
  have hpc := h.tiling.pos _ (List.mem_map_of_mem hc)
  simp only [Alloc.block] at hpa hpc
  simp only [Block.Apart, Alloc.block, hoff] at hap
  omega

theorem myMemMalloc_congr {b : Bank} {s s' : BankState} (size : U32)
    (h : ∀ j < b.memtblsize, (ensureInit b s').memmap j = (ensureInit b s).memmap j) :
    (myMemMalloc b s' size).1 = (myMemMalloc b s size).1 := by
  unfold myMemMalloc
  simp only [scan_congr h 0]
  split_ifs
  · rfl
  · split <;> rfl

/-- What one step makes of the live allocations does not depend on the table. -/
theorem heapStep_live {b : Bank} {h₁ h₂ h₁' h₂' : Heap} {op : HeapOp} (hi₁ : HeapInv b h₁)
    (hi₂ : HeapInv b h₂) (hl : h₂.live = h₁.live) (hs₁ : HeapStep b h₁ op h₁')
    (hs₂ : HeapStep b h₂ op h₂') : h₂'.live = h₁'.live := by
  rw [HeapInv, hl] at hi₂
  cases hs₁ with
  | malloc size =>
    cases hs₂
    simp only [hl]
    rw [myMemMalloc_congr size fun j hj => hi₁.cells_unique hi₂ hj]
  | free a ha =>
    generalize hop : HeapOp.free a.off = op at hs₂
    cases hs₂ with
    | malloc => simp at hop
    | free c hc =>
      have hoff : a.off = c.off := by simpa using hop
      rw [hl] at hc
      obtain rfl := hi₁.eq_of_off ha hc hoff
      simp only [hl]

/-- The same operations lead to the same live allocations from any two tables. -/
theorem heapRun_live {b : Bank} (hfit : b.memtblsize < 2 ^ 30) {map₁ map₂ : ℕ → U32}
    {ops : List HeapOp} {h₁ h₂ : Heap} (hr₁ : Run (HeapStep b) (Heap.start map₁) ops h₁)
    (hr₂ : Run (HeapStep b) (Heap.start map₂) ops h₂) : h₂.live = h₁.live := by
  induction ops using List.reverseRecOn generalizing h₁ h₂ with
  | nil =>
    rw [run_nil_iff] at hr₁ hr₂
    rw [hr₁, hr₂]
    rfl
  | append_singleton ops op ih =>
    obtain ⟨g₁, hg₁, hs₁⟩ := run_snoc_iff.mp hr₁
    obtain ⟨g₂, hg₂, hs₂⟩ := run_snoc_iff.mp hr₂
    exact heapStep_live (heapRun_inv hfit hg₁) (heapRun_inv hfit hg₂) (ih hg₁ hg₂) hs₁ hs₂

/-- After every step of every history the table represents the live allocations,
and neither they nor the table depend on what the table held at power-up. The
table has fewer than `2 ^ 30` cells, so that its size in bytes is a 32-bit number. -/
theorem history_represents (b : Bank) (hfit : b.memtblsize < 2 ^ 30) (map : ℕ → U32)
    (ops : List HeapOp) (h : Heap) (hrun : Run (HeapStep b) (Heap.start map) ops h)
    (hne : ops ≠ []) :
    Represents b h.bank h.live ∧
    ∀ map' h', Run (HeapStep b) (Heap.start map') ops h' →
      h'.live = h.live ∧ ∀ j < b.memtblsize, h'.bank.memmap j = h.bank.memmap j := by
  have hrep : ∀ {map h}, Run (HeapStep b) (Heap.start map) ops h → Represents b h.bank h.live := by
    intro map h hrun
    cases hrun with
    | nil => exact absurd rfl hne
    | snoc hr hs =>
      have hinv := heapRun_inv hfit hr
      exact (heapStep_represents hinv (fun _ => ready_of_live hfit hinv) hs).2
  refine ⟨hrep hrun, fun map' h' hrun' => ?_⟩
  have hlive := heapRun_live hfit hrun hrun'
  have hrep' := hrep hrun'
  rw [hlive] at hrep'
  exact ⟨hlive, fun j hj => (hrep hrun).cells_unique hrep' hj⟩

/-- On the second bank with garbage in its table: two requests from the top down, and the
first block is released again. -/
theorem history_represents_mem2 :
    ∃ h, Run (HeapStep mem2) (Heap.start fun _ => 7) [.malloc 64, .malloc 192, .free 960] h ∧
      h.live = [⟨768, 192⟩] ∧ Represents mem2 h.bank h.live := by
  have hstep : HeapStep mem2 _ _ _ := HeapStep.malloc (Heap.start fun _ => 7) 64
  have hrun := ((Run.single hstep).snoc (.malloc _ 192)).snoc (.free _ ⟨960, 64⟩ (by decide))
  exact ⟨_, hrun, by decide, (history_represents mem2 (by decide) _ _ _ hrun (by simp)).1⟩

/-- A table of `2 ^ 30` cells: the byte count of `my_mem_init` wraps to zero, so
the first call clears nothing and a cell that no allocation owns is not zero. -/
theorem history_not_represents :
    ¬ ∀ (b : Bank) (map : ℕ → U32) (ops : List HeapOp) (h : Heap),
      Run (HeapStep b) (Heap.start map) ops h → ops ≠ [] → Represents b h.bank h.live := by
  intro hall
  have hrep := hall ⟨2 ^ 30, 1, 2 ^ 30, by decide, by decide, by decide⟩ (fun _ => 1) [.malloc 0] _
    (Run.single (HeapStep.malloc _ 0)) (by simp)
  have hcell := hrep.tiling.rest 0 (by decide) (by simp [myMemMalloc, Heap.start, liveAfter])
  simp [BankState.cells, myMemMalloc, Heap.start, ensureInit, myMemInit, myMemSet] at hcell

end Stm32F407
