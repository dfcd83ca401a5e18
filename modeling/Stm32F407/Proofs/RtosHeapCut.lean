import Stm32F407.Proofs.RtosHeap

/-! The kernel's heap between its two ends: it is cut into blocks in use and free ones, no
two free ones beside each other, and begins as one free block. -/

namespace Stm32F407

open Lib Segs

variable {g : HeapPlace} {n p : U32}

theorem and_seven (x : U32) : (x &&& portBYTE_ALIGNMENT_MASK).toNat = x.toNat % 8 := by
  rw [BitVec.toNat_and]
  exact Nat.and_two_pow_sub_one_eq_mod x.toNat 3

theorem and_not_seven (x : U32) : (x &&& ~~~portBYTE_ALIGNMENT_MASK).toNat = x.toNat / 8 * 8 := by
  have h7 : ∀ i, portBYTE_ALIGNMENT_MASK.getLsbD i = decide (i < 3) := fun i =>
    Nat.testBit_two_pow_sub_one 3 i
  have h : x &&& ~~~portBYTE_ALIGNMENT_MASK = (x >>> 3) <<< 3 := by
    ext i hi
    rw [← BitVec.getLsbD_eq_getElem, ← BitVec.getLsbD_eq_getElem]
    simp only [BitVec.getLsbD_and, BitVec.getLsbD_not, h7, BitVec.getLsbD_shiftLeft,
      BitVec.getLsbD_ushiftRight]
    by_cases hlt : i < 3
    · simp [hlt]
    · simp [hlt, hi, Nat.add_sub_cancel' (not_lt.mp hlt)]
  rw [h, BitVec.toNat_shiftLeft, BitVec.toNat_ushiftRight, Nat.shiftLeft_eq, Nat.shiftRight_eq_div_pow]
  have := x.isLt
  omega

theorem and_allocated_eq_zero_iff (v : U32) :
    v &&& heapBLOCK_ALLOCATED_BITMASK = 0 ↔ v.toNat < 2 ^ 31 := by
  have hmask : heapBLOCK_ALLOCATED_BITMASK = BitVec.twoPow 32 31 := by decide
  have hmsb : v.getLsbD 31 = v.msb := by rw [BitVec.msb_eq_getLsbD_last]
  rw [hmask, BitVec.and_twoPow, hmsb, BitVec.msb_eq_decide]
  by_cases hv : 2 ^ 31 ≤ v.toNat <;> simp

/-- The mark of a block in use is taken off again. -/
theorem or_allocated_clear (v : U32) (hv : v.toNat < 2 ^ 31) :
    (v ||| heapBLOCK_ALLOCATED_BITMASK) &&& ~~~heapBLOCK_ALLOCATED_BITMASK = v := by
  have hzero := (and_allocated_eq_zero_iff v).mpr hv
  ext i hi
  have hbit := congrArg (·.getLsbD i) hzero
  simp only [BitVec.getLsbD_and] at hbit
  rw [← BitVec.getLsbD_eq_getElem, ← BitVec.getLsbD_eq_getElem]
  simp only [BitVec.getLsbD_and, BitVec.getLsbD_or, BitVec.getLsbD_not]
  cases hv : v.getLsbD i <;> cases hm : heapBLOCK_ALLOCATED_BITMASK.getLsbD i <;> simp_all

theorem or_allocated_ne_zero (v : U32) :
    (v ||| heapBLOCK_ALLOCATED_BITMASK) &&& heapBLOCK_ALLOCATED_BITMASK ≠ 0 := by
  rw [Ne, and_allocated_eq_zero_iff, BitVec.toNat_or]
  have hle : 2 ^ 31 ≤ v.toNat ||| heapBLOCK_ALLOCATED_BITMASK.toNat := Nat.right_le_or
  omega

namespace PortHeap

variable {h h' : PortHeap} {L pre post : List (Seg U32)} {u : Block × U32} {a b c e k w x : ℕ}

theorem wantedBlockSize_zero : wantedBlockSize 0 = 0 := rfl

theorem wantedBlockSize_eq (hn : 0 < n.toNat) :
    wantedBlockSize n = if allocSize n < 2 ^ 32 then adr (allocSize n) else 0 := by
  have hsum : xHeapStructSize + portBYTE_ALIGNMENT = 16#32 := by decide
  have hmod := Nat.mod_lt n.toNat (show 0 < 8 by omega)
  have hlt := n.isLt
  have hextra : (16#32 - (n &&& portBYTE_ALIGNMENT_MASK)).toNat = 16 - n.toNat % 8 := by
    rw [BitVec.toNat_sub, and_seven, BitVec.toNat_ofNat]
    omega
  have hover : heapADD_WILL_OVERFLOW n (16#32 - (n &&& portBYTE_ALIGNMENT_MASK)) = false ↔
      allocSize n < 2 ^ 32 := by
    have hmax : heapSIZE_MAX.toNat = 2 ^ 32 - 1 := rfl
    unfold heapADD_WILL_OVERFLOW allocSize
    rw [decide_eq_false_iff_not, BitVec.lt_def, BitVec.toNat_sub, hextra, hmax]
    omega
  have hpos : (0 : U32) < n := by
    rw [BitVec.lt_def]
    exact hn
  unfold wantedBlockSize
  simp only [if_pos hpos, hsum, hover]
  refine if_congr Iff.rfl ?_ rfl
  rw [← BitVec.toNat_inj, BitVec.toNat_add, hextra, BitVec.toNat_ofNat]
  unfold allocSize
  congr 1
  omega

theorem allocSize_spec (n : U32) : 16 ≤ allocSize n ∧ allocSize n % 8 = 0 ∧ n.toNat + 8 < allocSize n := by
  have hmod := Nat.mod_lt n.toNat (show 0 < 8 by omega)
  unfold allocSize
  omega

theorem heap_ends (g : HeapPlace) : 0 < heapBase g ∧ heapBase g + 26608 ≤ heapEnd g ∧
    heapEnd g ≤ heapBase g + 26616 ∧ heapEnd g + 8 < 2 ^ 32 ∧ heapBase g % 8 = 0 ∧
    heapEnd g % 8 = 0 := by
  have hpos := g.pos
  have hinside := g.inside
  have hsize : configTOTAL_HEAP_SIZE.toNat = 26624 := rfl
  unfold heapBase heapEnd
  omega

theorem xStart_outside (g : HeapPlace) :
    g.xStart.toNat + 8 ≤ heapBase g ∨ heapEnd g + 8 ≤ g.xStart.toNat := by
  have hout := g.outside
  have hsize : configTOTAL_HEAP_SIZE.toNat = 26624 := rfl
  unfold Block.Apart at hout
  unfold heapBase heapEnd
  simp only at hout
  omega

/-- The heap is cut into the segments `L`, and every header says so. -/
structure Cut (g : HeapPlace) (h : PortHeap) (L : List (Seg U32)) : Prop where
  pxEnd : h.pxEnd = adr (heapEnd g)
  head : h.mem (adr g.xStart.toNat) = ⟨adr (nextFree (heapBase g) L (heapEnd g)), 0⟩
  chain : Chain h.mem (heapBase g) L (heapEnd g)
  used : ∀ u ∈ usedAt (heapBase g) L,
    h.mem (adr u.1.start) = ⟨0, adr u.1.len ||| heapBLOCK_ALLOCATED_BITMASK⟩
  last : h.mem (adr (heapEnd g)) = ⟨0, 0⟩
  total : heapBase g + total L = heapEnd g
  separated : Separated L
  sizes : ∀ s ∈ L, 16 ≤ s.len ∧ s.len % 8 = 0
  wanted : ∀ u ∈ usedAt (heapBase g) L, 0 < u.2.toNat ∧ allocSize u.2 ≤ u.1.len ∧
    u.1.len ≤ allocSize u.2 + 16
  remaining : h.xFreeBytesRemaining = adr (freeTotal L)
  least : h.xMinimumEverFreeBytesRemaining ≤ h.xFreeBytesRemaining

namespace Cut

theorem pos (hc : Cut g h L) : ∀ s ∈ L, 0 < s.len := fun s hs => by
  have := (hc.sizes s hs).1
  omega

theorem total_le (hc : Cut g h L) : Segs.total L ≤ 26616 := by
  have hends := heap_ends g
  have htotal := hc.total
  omega

theorem freeTotal_le (hc : Cut g h L) : freeTotal L ≤ 26616 := by
  have hsum := freeTotal_add_used (heapBase g) L
  have hle := hc.total_le
  omega

theorem count (hc : Cut g h L) : L.length < heapRounds := by
  have hle : ∀ M : List (Seg U32), (∀ s ∈ M, 16 ≤ s.len) → 16 * M.length ≤ Segs.total M := by
    intro M
    induction M with
    | nil => simp
    | cons s M ih =>
      intro hM
      have hs := hM s (by simp)
      have hrest := ih fun t ht => hM t (List.mem_cons_of_mem _ ht)
      rw [List.length_cons, total_cons]
      omega
  have hL := hle L fun s hs => (hc.sizes s hs).1
  have htotal := hc.total_le
  unfold heapRounds
  omega

end Cut

theorem lastFree_ne_used (hpos : ∀ s ∈ L, 0 < s.len) (hout : x < a ∨ a + total L ≤ x)
    (hu : u ∈ usedAt a L) : u.1.start ≠ lastFree x a L := by
  have hlen : 0 < u.1.len := by
    obtain ⟨pre, post, heq, -⟩ := usedAt_mem hu
    exact hpos (.used u.1.len u.2) (by rw [heq]; simp)
  have hrange := usedAt_start_le hu
  rcases lastFree_cases x a L with ⟨hx, -⟩ | ⟨pre, k, mid, rfl, hy, -⟩
  · rw [hx]
    omega
  · have hk := hpos (.free k) (by simp)
    rw [hy]
    rw [usedAt_append] at hu
    rcases List.mem_append.mp hu with hu | hu
    · have := usedAt_start_le hu
      omega
    · have := usedAt_start_le (show u ∈ usedAt (a + total pre + k) mid from hu)
      simp only [Seg.len_free] at hk
      omega

/-- The link of the last free segment. -/
theorem lastFree_next (hc : Chain h.mem a (pre ++ post) e)
    (hx : (h.mem (adr x)).pxNextFreeBlock = adr (nextFree a (pre ++ post) e)) :
    (h.mem (adr (lastFree x a pre))).pxNextFreeBlock = adr (nextFree (a + total pre) post e) := by
  rcases lastFree_cases x a pre with ⟨hy, hall⟩ | ⟨pre₁, k, mid, rfl, hy, hmid⟩
  · rw [hy, hx, nextFree_append, nextFree_of_used hall]
  · rw [List.append_assoc, List.cons_append, chain_append] at hc
    have hnode := hc.2.1
    rw [nextFree_append, nextFree_of_used hmid] at hnode
    rw [hy, hnode]
    simp [Nat.add_assoc]

theorem prvHeapInit_base (g : HeapPlace) :
    (if g.ucHeap &&& portBYTE_ALIGNMENT_MASK ≠ 0 then
      (((g.ucHeap + (portBYTE_ALIGNMENT - 1)) &&& ~~~portBYTE_ALIGNMENT_MASK),
        configTOTAL_HEAP_SIZE -
          (((g.ucHeap + (portBYTE_ALIGNMENT - 1)) &&& ~~~portBYTE_ALIGNMENT_MASK) - g.ucHeap))
      else (g.ucHeap, configTOTAL_HEAP_SIZE)) =
    (adr (heapBase g), adr (g.ucHeap.toNat + 26624 - heapBase g)) := by
  have hinside := g.inside
  have hsize : configTOTAL_HEAP_SIZE.toNat = 26624 := rfl
  have hseven : portBYTE_ALIGNMENT - 1 = 7#32 := rfl
  have hmask : g.ucHeap &&& portBYTE_ALIGNMENT_MASK = 0 ↔ g.ucHeap.toNat % 8 = 0 := by
    rw [← BitVec.toNat_inj, and_seven]
    rfl
  have hup : (g.ucHeap + 7#32) &&& ~~~portBYTE_ALIGNMENT_MASK = adr (heapBase g) := by
    rw [← BitVec.toNat_inj, and_not_seven, BitVec.toNat_add, BitVec.toNat_ofNat, BitVec.toNat_ofNat]
    unfold heapBase
    omega
  have hshift : adr (heapBase g) - g.ucHeap = adr (heapBase g - g.ucHeap.toNat) := by
    rw [← adr_sub (by unfold heapBase; omega), adr_toNat]
  rw [hseven, hup, hshift, show configTOTAL_HEAP_SIZE = adr 26624 from rfl,
    adr_sub (by unfold heapBase; omega)]
  split_ifs with halign
  · congr 2
    unfold heapBase
    omega
  · rw [not_not, hmask] at halign
    have hbase : heapBase g = g.ucHeap.toNat := by
      unfold heapBase
      omega
    rw [hbase, adr_toNat, Nat.add_sub_cancel_left]

theorem prvHeapInit_last (g : HeapPlace) :
    (adr (heapBase g) + adr (g.ucHeap.toNat + 26624 - heapBase g) - xHeapStructSize) &&&
      ~~~portBYTE_ALIGNMENT_MASK = adr (heapEnd g) := by
  have hinside := g.inside
  have hsize : configTOTAL_HEAP_SIZE.toNat = 26624 := rfl
  have hbase : heapBase g ≤ g.ucHeap.toNat + 7 := by
    unfold heapBase
    omega
  rw [adr_add, show xHeapStructSize = adr 8 from rfl, adr_sub (by omega), ← BitVec.toNat_inj,
    and_not_seven, BitVec.toNat_ofNat, BitVec.toNat_ofNat]
  unfold heapEnd
  omega

theorem prvHeapInit_eq (g : HeapPlace) (h : PortHeap) : h.prvHeapInit g =
    { h with
      mem := Function.update (Function.update (Function.update h.mem (adr g.xStart.toNat)
        ⟨adr (heapBase g), 0⟩) (adr (heapEnd g)) ⟨0, 0⟩) (adr (heapBase g))
        ⟨adr (heapEnd g), adr (heapEnd g - heapBase g)⟩
      pxEnd := adr (heapEnd g)
      xFreeBytesRemaining := adr (heapEnd g - heapBase g)
      xMinimumEverFreeBytesRemaining := adr (heapEnd g - heapBase g) } := by
  have hends := heap_ends g
  have hsub : adr (heapEnd g) - adr (heapBase g) = adr (heapEnd g - heapBase g) := adr_sub (by omega)
  unfold prvHeapInit
  rw [prvHeapInit_base]
  simp only [prvHeapInit_last, hsub, setNext, setSize, Function.update_self, Function.update_idem,
    adr_toNat]

/-- The heap begins as one free block. -/
theorem prvHeapInit_cut (g : HeapPlace) (h : PortHeap) :
    Cut g (h.prvHeapInit g) [.free (heapEnd g - heapBase g)] := by
  obtain ⟨hpos, hlow, hhigh, hlast, hmod, hmod'⟩ := heap_ends g
  have hout := xStart_outside g
  have hxb : adr g.xStart.toNat ≠ adr (heapBase g) := by
    rw [Ne, adr_inj g.xStart.isLt (by omega)]
    omega
  have hxe : adr g.xStart.toNat ≠ adr (heapEnd g) := by
    rw [Ne, adr_inj g.xStart.isLt (by omega)]
    omega
  have heb : adr (heapEnd g) ≠ adr (heapBase g) := by
    rw [Ne, adr_inj (by omega) (by omega)]
    omega
  rw [prvHeapInit_eq]
  refine ⟨rfl, ?_, ⟨Function.update_self _ _ _, trivial⟩, by simp [usedAt], ?_, ?_, ?_, ?_,
    by simp [usedAt], by simp [freeTotal], BitVec.le_refl _⟩
  · show Function.update _ _ _ _ = _
    rw [Function.update_of_ne hxb, Function.update_of_ne hxe, Function.update_self, nextFree_free]
  · show Function.update _ _ _ _ = _
    rw [Function.update_of_ne heb, Function.update_self]
  · rw [total_cons, total_nil, Seg.len_free]
    omega
  · exact ⟨by simp, trivial⟩
  · intro s hs
    rw [List.mem_singleton.mp hs, Seg.len_free]
    omega

end PortHeap

end Stm32F407
