import Stm32F407.Proofs.MallocFree

/-! What `my_mem_perused` reports: it counts the cells in use, and in a reachable
state these are the blocks of the live allocations. -/

namespace Stm32F407

open Lib

def usedBlocks (b : Bank) (live : List Alloc) : ℕ :=
  (live.map fun a => a.size.toNat ⌈/⌉ b.memblksize).sum

/-- The count does not wrap: it is that of the nonzero cells. -/
theorem countUsed_eq (map : ℕ → U32) (n : ℕ) :
    countUsed map n = BitVec.ofNat 32 ((Finset.range n).filter fun j => (map j).toNat ≠ 0).card := by
  induction n with
  | zero => rfl
  | succ n ih =>
    have hcell : map n ≠ 0 ↔ (map n).toNat ≠ 0 := by
      rw [ne_eq, ne_eq, ← BitVec.toNat_inj]
      rfl
    rw [countUsed, ih, Finset.range_add_one, Finset.filter_insert]
    simp only [hcell]
    split_ifs with hused
    · rw [Finset.card_insert_of_notMem (by simp), BitVec.ofNat_add]
      rfl
    · rfl

variable {b : Bank} {s s' : BankState} {live live' : List Alloc}

theorem Represents.card_used (h : Represents b s live) :
    ((Finset.range b.memtblsize).filter fun j => (s.memmap j).toNat ≠ 0).card =
      usedBlocks b live := by
  have hcard := h.tiling.card_used
  rw [List.map_map] at hcard
  exact hcard

theorem Represents.usedBlocks_le (h : Represents b s live) : usedBlocks b live ≤ b.memtblsize := by
  rw [← h.card_used]
  exact (Finset.card_filter_le _ _).trans_eq (Finset.card_range _)

theorem Represents.countUsed_toNat (h : Represents b s live) (hN : b.memtblsize ≤ 1000) :
    (countUsed s.memmap b.memtblsize).toNat = usedBlocks b live := by
  have hle := h.usedBlocks_le
  rw [countUsed_eq, h.card_used, BitVec.toNat_ofNat]
  omega

/-- Neither the product nor the quotient leaves its type. -/
structure PerusedExact (b : Bank) (s : BankState) (live : List Alloc) : Prop where
  product : (countUsed s.memmap b.memtblsize).toNat * 1000 < 2 ^ 32
  quotient : (countUsed s.memmap b.memtblsize).toNat * 1000 / b.memtblsize < 2 ^ 16
  value : (myMemPerused b s).toNat = 1000 * usedBlocks b live / b.memtblsize

theorem Represents.perusedExact (h : Represents b s live) (hN : b.memtblsize ≤ 1000) :
    PerusedExact b s live := by
  have hle := h.usedBlocks_le
  have hcount := h.countUsed_toNat hN
  have hquot : usedBlocks b live * 1000 / b.memtblsize ≤ 1000 :=
    Nat.div_le_of_le_mul (Nat.mul_le_mul_right _ hle)
  refine ⟨by omega, by rw [hcount]; omega, ?_⟩
  have hprod : (countUsed s.memmap b.memtblsize * 1000).toNat = usedBlocks b live * 1000 := by
    rw [BitVec.toNat_mul, hcount]
    exact Nat.mod_eq_of_lt (by change usedBlocks b live * 1000 < 2 ^ 32; omega)
  rw [myMemPerused, BitVec.toNat_setWidth, BitVec.toNat_udiv, hprod, BitVec.toNat_ofNat,
    Nat.mod_eq_of_lt (show b.memtblsize < 2 ^ 32 by omega), Nat.mod_eq_of_lt (by omega), Nat.mul_comm]

theorem Represents.perused_mono (h : Represents b s live) (h' : Represents b s' live')
    (hN : b.memtblsize ≤ 1000) (hle : usedBlocks b live ≤ usedBlocks b live') :
    (myMemPerused b s).toNat ≤ (myMemPerused b s').toNat := by
  rw [(h.perusedExact hN).value, (h'.perusedExact hN).value]
  exact Nat.div_le_div_right (Nat.mul_le_mul_left _ hle)

/-- Every live allocation has a block, so nothing is live exactly when none is used. -/
theorem Represents.usedBlocks_eq_zero (h : Represents b s live) :
    usedBlocks b live = 0 ↔ live = [] := by
  constructor
  · intro hzero
    cases hlive : live with
    | nil => rfl
    | cons a l =>
      have hpos := h.tiling.pos (a.block b) (by simp [hlive])
      simp only [usedBlocks, hlive, List.map_cons, List.sum_cons] at hzero
      simp only [Alloc.block] at hpos
      omega
  · rintro rfl
    rfl

/-- All blocks are used exactly when not even one byte can be allocated. -/
theorem Represents.usedBlocks_eq_all (h : Represents b s live) (hr : s.memrdy ≠ 0) :
    usedBlocks b live = b.memtblsize ↔ ∀ size, (myMemMalloc b s size).1 = 0xFFFFFFFF := by
  have hfull : usedBlocks b live = b.memtblsize ↔ ∀ j < b.memtblsize, s.memmap j ≠ 0 := by
    rw [← h.card_used]
    constructor
    · intro hcard j hj hz
      have hall := Finset.card_filter_eq_iff.mp (hcard.trans (Finset.card_range _).symm)
      exact hall j (Finset.mem_range.mpr hj) (by rw [hz]; rfl)
    · intro hused
      rw [Finset.filter_true_of_mem, Finset.card_range]
      intro j hj hz
      exact hused j (Finset.mem_range.mp hj) (BitVec.eq_of_toNat_eq hz)
  rw [hfull]
  constructor
  · intro hused size
    rw [(malloc_places_topmost b s size hr).1]
    rcases eq_or_ne size 0 with h0 | h0
    · exact Or.inl h0
    · refine Or.inr fun p hp => ?_
      have hpos := blocksFor_pos b h0
      rw [blocksFor_eq] at hpos
      have hin := hp.inside
      exact hused p (by omega) (hp.free p le_rfl (by omega))
  · intro hfail j hj hz
    have hone : blocksFor b 1 = 1 := by
      rw [blocksFor_eq, Nat.ceilDiv_eq_add_pred_div]
      change (1 + b.memblksize - 1) / b.memblksize = 1
      rw [Nat.add_sub_cancel_left, Nat.div_self b.blk_pos]
    have hrun : FreeRun b.memtblsize (ensureInit b s).memmap (blocksFor b 1) j := by
      rw [hone, ensureInit_of_ready b hr]
      refine ⟨by omega, fun i h1 h2 => ?_⟩
      obtain rfl : i = j := by omega
      exact hz
    exact myMemMalloc_ne_of_freeRun (by decide) hrun (hfail 1)

theorem usedBlocks_cons (a : Alloc) (live : List Alloc) :
    usedBlocks b (a :: live) = a.size.toNat ⌈/⌉ b.memblksize + usedBlocks b live := by
  rw [usedBlocks, List.map_cons, List.sum_cons]
  rfl

theorem usedBlocks_perm (h : live.Perm live') : usedBlocks b live = usedBlocks b live' :=
  (h.map _).sum_eq

/-- The usage of a ready bank in a reachable state is the share of the live allocations,
with both ends of the scale exact, and it follows the calls. -/
theorem perused_spec (b : Bank) (h : Heap) (hreach : Reachable b h) (hr : h.bank.memrdy ≠ 0)
    (hpos : 1 ≤ b.memtblsize) (hN : b.memtblsize ≤ 1000) :
    PerusedExact b h.bank h.live ∧
    ((myMemPerused b h.bank).toNat = 0 ↔ h.live = []) ∧
    ((myMemPerused b h.bank).toNat = 1000 ↔
      ∀ size, (myMemMalloc b h.bank size).1 = 0xFFFFFFFF) ∧
    (∀ size, (myMemMalloc b h.bank size).1 ≠ 0xFFFFFFFF →
      (myMemPerused b h.bank).toNat ≤ (myMemPerused b (myMemMalloc b h.bank size).2).toNat) ∧
    ∀ a ∈ h.live,
      (myMemPerused b (myMemFree b h.bank a.off).2).toNat ≤ (myMemPerused b h.bank).toNat := by
  have hrep := hreach.staticInv.rep
  have hval := (hrep.perusedExact hN).value
  have hle := hrep.usedBlocks_le
  refine ⟨hrep.perusedExact hN, ?_, ?_, fun size hok => ?_, fun a ha => ?_⟩
  · rw [hval, ← hrep.usedBlocks_eq_zero, Nat.div_eq_zero_iff_lt hpos]
    omega
  · rw [hval, ← hrep.usedBlocks_eq_all hr]
    constructor
    · intro hfull
      have hmul := Nat.div_mul_le_self (1000 * usedBlocks b h.live) b.memtblsize
      rw [hfull] at hmul
      omega
    · intro hall
      rw [hall, Nat.mul_div_cancel _ hpos]
  · have hrep' := (hreach.snoc (.malloc h size)).staticInv.rep
    rw [liveAfter, if_neg hok] at hrep'
    apply hrep.perused_mono hrep' hN
    rw [usedBlocks_cons]
    omega
  · have hrep' := (hreach.snoc (.free h a ha)).staticInv.rep
    have herase : usedBlocks b (h.live.erase a) ≤ usedBlocks b h.live := by
      rw [usedBlocks_perm (List.perm_cons_erase ha), usedBlocks_cons]
      omega
    exact hrep'.perused_mono hrep hN herase

/-- Two of the sixteen blocks of the second bank in use. -/
theorem perused_spec_mem2 :
    ∃ h, Reachable mem2 h ∧ h.live = [⟨896, 128⟩] ∧ (myMemPerused mem2 h.bank).toNat = 125 := by
  have hs : HeapStep mem2 _ _ _ := .malloc (Heap.start fun _ => 0) 128
  have hr : Reachable mem2 _ := .static (fun _ => 0) _ (fun _ _ => rfl) (Run.single hs)
  have hlive : liveAfter [] (myMemMalloc mem2 (Heap.start fun _ => 0).bank 128).1 128 =
      [⟨896, 128⟩] := by decide
  refine ⟨_, hr, hlive, ?_⟩
  rw [(perused_spec mem2 _ hr (by decide) (by decide) (by decide)).1.value]
  exact congrArg (fun live => 1000 * usedBlocks mem2 live / 16) hlive

end Stm32F407
