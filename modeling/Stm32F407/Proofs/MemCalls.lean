import Stm32F407.Spec.MemClients
import Stm32F407.Proofs.MallocPlacement

/-! What the clients' calls of `my_malloc` and `my_free` do to the bank and to who holds
what, one by one and in the sequences in which the drivers make them. -/

namespace Stm32F407

open Lib

variable {m : Sram} {s : BankState} {w : World} {o : Owner} {p size : U32}

theorem membase_add_ne {off : U32} (h : off.toNat < m.memsize) : m.membase + off ≠ 0 :=
  base_add_ne m.base_ne m.fits h

theorem MallocResult.keeps {b : Bank} {s s' : BankState} {off : U32}
    (h : MallocResult b s size off s') {j : ℕ} (hj : s.memmap j ≠ 0) : s'.memmap j ≠ 0 := by
  cases h with
  | fail => exact hj
  | found p _ hpos hin hfree hoff =>
    have hout : j < p ∨ p + blocksFor b size ≤ j := by
      by_contra hout
      exact hj (hfree j (by omega) (by omega))
    simpa only [fill_outside _ _ hout] using hj

theorem myMalloc_bank (s : BankState) (size : U32) :
    (myMalloc m s size).2 = (myMemMalloc m.toBank s size).2 := by
  unfold myMalloc
  simp only
  split_ifs <;> rfl

theorem myMalloc_memrdy (s : BankState) (size : U32) : (myMalloc m s size).2.memrdy ≠ 0 := by
  rw [myMalloc_bank, (myMemMalloc_result m.toBank s size).memrdy]
  exact ensureInit_memrdy _ _

theorem Held.isAt_iff {a : Held} : Held.isAt o p a = true ↔ a.owner = o ∧ a.ptr = p := by
  simp [Held.isAt]

theorem eraseP_of_not_held (h : ∀ a ∈ w.held, a.owner = o → a.ptr ≠ p) :
    w.held.eraseP (Held.isAt o p) = w.held := by
  apply List.eraseP_of_forall_not
  intro a ha hat
  obtain ⟨ho, hp⟩ := Held.isAt_iff.mp hat
  exact h a ha ho hp

/-- Freeing what the caller does not hold changes no cell, provided the block is free. -/
theorem myFree_stale {s : BankState} (hzero : s.memrdy = 0 → ∀ j < m.memtblsize, s.memmap j = 0)
    (hp : p = 0 ∨ s.memmap ((p - m.membase).toNat / m.memblksize) = 0) :
    (myFree m s p).memmap = s.memmap ∧
      ((myFree m s p) = s ∨ (myFree m s p) = ensureInit m.toBank s) := by
  unfold myFree
  split_ifs with h0
  · exact ⟨rfl, Or.inl rfl⟩
  have hcell := hp.resolve_left h0
  unfold myMemFree
  split_ifs with hr hlt
  · have hinit : ensureInit m.toBank s = myMemInit m.toBank s := if_pos hr
    rw [← hinit]
    exact ⟨ensureInit_memmap hzero, Or.inr rfl⟩
  · simp only [hcell]
    exact ⟨rfl, Or.inl rfl⟩
  · exact ⟨rfl, Or.inl rfl⟩

/-- `my_free` writes zeros only. -/
theorem free_keeps_zero {j : ℕ} (hj : w.bank.memmap j = 0) :
    (w.free m o p).bank.memmap j = 0 := by
  change (myFree m w.bank p).memmap j = 0
  unfold myFree myMemFree
  split_ifs
  · exact hj
  · rw [myMemInit_memmap m.toBank _ m.tbl_lt, fill_apply]
    split_ifs
    · rfl
    · exact hj
  · simp only [fill_apply]
    split_ifs
    · rfl
    · exact hj
  · exact hj

theorem World.mem_free_of_other {a : Held} {o' : Owner} (ho : a.owner = o) (hne : o ≠ o') :
    a ∈ (w.free m o' p).held ↔ a ∈ w.held := by
  apply List.mem_eraseP_of_neg
  rw [Held.isAt_iff]
  exact fun h => hne (ho.symm.trans h.1)

theorem World.mem_malloc_of_other {a : Held} {o' : Owner} (ho : a.owner = o) (hne : o ≠ o') :
    a ∈ (w.malloc m o' size).2.held ↔ a ∈ w.held := by
  change a ∈ (if _ then w.held else _ :: w.held) ↔ a ∈ w.held
  split_ifs
  · rfl
  · rw [List.mem_cons]
    refine ⟨fun h => h.resolve_left ?_, Or.inr⟩
    rintro rfl
    exact hne ho.symm

theorem World.held_subset_malloc : w.held ⊆ (w.malloc m o size).2.held := by
  intro a ha
  change a ∈ (if _ then w.held else _ :: w.held)
  split_ifs
  · exact ha
  · exact List.mem_cons_of_mem _ ha

def freeAll (m : Sram) (o : Owner) (w : World) (ptrs : List U32) : World :=
  ptrs.foldl (World.free m o) w

theorem freeAll_held_subset (l : List U32) : (freeAll m o w l).held ⊆ w.held := by
  induction l generalizing w with
  | nil => exact fun a ha => ha
  | cons p l ih => exact fun a ha => List.mem_of_mem_eraseP (ih ha)

theorem mem_freeAll_of_other {a : Held} {o' : Owner} (ho : a.owner = o) (hne : o ≠ o')
    (l : List U32) : a ∈ (freeAll m o' w l).held ↔ a ∈ w.held := by
  induction l generalizing w with
  | nil => rfl
  | cons p l ih => exact ih.trans (World.mem_free_of_other ho hne)

theorem freeAll_log {c : Call} (l : List U32) (hc : c ∈ w.log) : c ∈ (freeAll m o w l).log := by
  induction l generalizing w with
  | nil => exact hc
  | cons p l ih => exact ih (List.mem_append_left _ hc)

theorem freeAll_held (ps : List U32) : (freeAll m o w ps).held =
    ps.foldl (fun held p => held.eraseP (Held.isAt o p)) w.held := by
  induction ps generalizing w with
  | nil => rfl
  | cons p ps ih => exact ih

theorem freeAll_keeps_zero {j : ℕ} (ps : List U32) (hj : w.bank.memmap j = 0) :
    (freeAll m o w ps).bank.memmap j = 0 := by
  induction ps generalizing w with
  | nil => exact hj
  | cons p ps ih => exact ih (free_keeps_zero hj)

def mallocAll (m : Sram) (o : Owner) (w : World) : List U32 → List U32 × World
  | [] => ([], w)
  | n :: ns =>
      let r := w.malloc m o n
      let rs := mallocAll m o r.2 ns
      (r.1 :: rs.1, rs.2)

theorem held_subset_mallocAll (ns : List U32) : w.held ⊆ (mallocAll m o w ns).2.held := by
  induction ns generalizing w with
  | nil => exact fun a ha => ha
  | cons n ns ih => exact fun a ha => ih (World.held_subset_malloc ha)

theorem mem_mallocAll_of_other {a : Held} {o' : Owner} (ho : a.owner = o) (hne : o ≠ o')
    (ns : List U32) : a ∈ (mallocAll m o' w ns).2.held ↔ a ∈ w.held := by
  induction ns generalizing w with
  | nil => rfl
  | cons n ns ih => exact ih.trans (World.mem_malloc_of_other ho hne)

theorem mem_mallocAll {a : Held} (ns : List U32) (ha : a ∈ (mallocAll m o w ns).2.held) :
    a ∈ w.held ∨ a.ptr ∈ (mallocAll m o w ns).1 := by
  induction ns generalizing w with
  | nil => exact Or.inl ha
  | cons n ns ih =>
    rcases ih ha with ha | ha
    · change a ∈ (if (w.malloc m o n).1 = 0 then w.held else _ :: w.held) at ha
      split_ifs at ha
      · exact Or.inl ha
      · rcases List.mem_cons.mp ha with rfl | ha
        · exact Or.inr List.mem_cons_self
        · exact Or.inl ha
    · exact Or.inr (List.mem_cons_of_mem _ ha)

def obtained (o : Owner) (ps ns : List U32) : List Held :=
  (List.zipWith (Held.mk o) ps ns).filter fun a => a.ptr ≠ 0

theorem obtained_cons_null (o : Owner) (n : U32) (ps ns : List U32) :
    obtained o (0 :: ps) (n :: ns) = obtained o ps ns := by
  simp [obtained]

theorem obtained_cons (hp : p ≠ 0) (n : U32) (ps ns : List U32) :
    obtained o (p :: ps) (n :: ns) = ⟨o, p, n⟩ :: obtained o ps ns :=
  List.filter_cons_of_pos (by simpa using hp)

theorem mallocAll_held_eq (ns : List U32) : (mallocAll m o w ns).2.held =
    (obtained o (mallocAll m o w ns).1 ns).reverse ++ w.held := by
  induction ns generalizing w with
  | nil => rfl
  | cons n ns ih =>
    have hheld : (w.malloc m o n).2.held =
        if (w.malloc m o n).1 = 0 then w.held else ⟨o, (w.malloc m o n).1, n⟩ :: w.held := rfl
    simp only [mallocAll]
    rw [ih, hheld]
    split_ifs with hp
    · rw [hp, obtained_cons_null]
    · rw [obtained_cons hp, List.reverse_cons, List.append_assoc]
      rfl

/-- The block below the others is the one handed out. -/
theorem Stacked.malloc {k : ℕ} (hzero : s.memrdy = 0 → ∀ j < m.memtblsize, s.memmap j = 0)
    (h : Stacked m.memtblsize s.memmap k) (hpos : size ≠ 0) (hle : size.toNat ⌈/⌉ m.memblksize ≤ k) :
    (myMalloc m s size).1 = m.membase +
      BitVec.ofNat 32 ((k - size.toNat ⌈/⌉ m.memblksize) * m.memblksize) ∧
    Stacked m.memtblsize (myMalloc m s size).2.memmap (k - size.toNat ⌈/⌉ m.memblksize) := by
  have hblocks := blocksFor_pos m.toBank hpos
  rw [← blocksFor_eq] at hle ⊢
  have hk := h.le
  have htop := h.topmost hblocks hle
  have hlt := blocks_lt htop.1.inside
  have hoff := (toNat_offset m.toBank hblocks htop.1.inside).1
  have hne := MallocResult.off_ne hblocks htop.1.inside hoff
  have hcall := myMemMalloc_topmost hpos (by rwa [ensureInit_memmap hzero])
  rw [ensureInit_memmap hzero] at hcall
  simp only [myMalloc, hcall, if_neg hne, true_and]
  refine ⟨by omega, fun j hj => ?_, fun j h1 h2 => ?_⟩
  · rw [fill_outside _ _ (by omega)]
    exact h.free j (by omega)
  · by_cases hj : j < k
    · rw [fill_inside _ _ h1 (by omega)]
      intro h0
      have hz := congrArg BitVec.toNat h0
      rw [BitVec.toNat_ofNat] at hz
      simp at hz
      omega
    · rw [fill_outside _ _ (by omega)]
      exact h.used j (by omega) h2

def stackPtrs (m : Sram) : ℕ → List U32 → List U32
  | _, [] => []
  | k, n :: ns =>
      let k := k - n.toNat ⌈/⌉ m.memblksize
      (m.membase + BitVec.ofNat 32 (k * m.memblksize)) :: stackPtrs m k ns

theorem mallocAll_stacked {k : ℕ} {ns : List U32}
    (hzero : w.bank.memrdy = 0 → ∀ j < m.memtblsize, w.bank.memmap j = 0)
    (h : Stacked m.memtblsize w.bank.memmap k) (hpos : 0 ∉ ns)
    (hsum : (ns.map fun n => n.toNat ⌈/⌉ m.memblksize).sum ≤ k) :
    (mallocAll m o w ns).1 = stackPtrs m k ns ∧
      Stacked m.memtblsize (mallocAll m o w ns).2.bank.memmap
        (k - (ns.map fun n => n.toNat ⌈/⌉ m.memblksize).sum) := by
  induction ns generalizing w k with
  | nil => exact ⟨rfl, h⟩
  | cons n ns ih =>
    rw [List.map_cons, List.sum_cons] at hsum
    rw [List.mem_cons, not_or] at hpos
    obtain ⟨hptr, hrest⟩ := h.malloc hzero (Ne.symm hpos.1) (by omega)
    have hready : (w.malloc m o n).2.bank.memrdy ≠ 0 := myMalloc_memrdy w.bank n
    obtain ⟨htail, hstack⟩ := ih (w := (w.malloc m o n).2) (fun h0 => absurd h0 hready) hrest hpos.2
      (by omega)
    rw [List.map_cons, List.sum_cons, ← Nat.sub_sub]
    exact ⟨congrArg₂ List.cons hptr htail, hstack⟩

/-- All globals obtained, and released again when one of them is NULL. -/
def acquire (m : Sram) (o : Owner) (w : World) (ns : List U32) : World :=
  let r := mallocAll m o w ns
  if 0 ∈ r.1 then freeAll m o r.2 r.1 else r.2

theorem mem_acquire_of_other {a : Held} {o' : Owner} (ho : a.owner = o) (hne : o ≠ o')
    (ns : List U32) : a ∈ (acquire m o' w ns).held ↔ a ∈ w.held := by
  unfold acquire
  simp only
  split_ifs
  · exact (mem_freeAll_of_other ho hne _).trans (mem_mallocAll_of_other ho hne ns)
  · exact mem_mallocAll_of_other ho hne ns

def ethSizes : List U32 :=
  [ethRxBufNb * sizeofDmaDesc, ethTxBufNb * sizeofDmaDesc, ethRxBufSize * ethRxBufNb,
    ethTxBufSize * ethTxBufNb]

theorem zero_mem_four {a b c d : U32} :
    (0 : U32) ∈ [a, b, c, d] ↔ a = 0 ∨ b = 0 ∨ c = 0 ∨ d = 0 := by
  simp only [List.mem_cons, List.not_mem_nil, or_false, eq_comm]

theorem myEthMemFree_eq (g : EthMem) (w : World) : myEthMemFree m g w = freeAll m .eth w g.ptrs := rfl

theorem myEthMemMalloc_of_null {g : EthMem} (hnull : ∀ p ∈ g.ptrs, p = 0) (w : World) :
    (myEthMemMalloc m g w).2.1.ptrs = (mallocAll m .eth w ethSizes).1 ∧
    (myEthMemMalloc m g w).2.2 = acquire m .eth w ethSizes := by
  have hcond : g.pgDmaRxDscrTab = 0 ∧ g.pgDmaTxDscrTab = 0 ∧ g.pgRxBuff = 0 ∧ g.pgTxBuff = 0 := by
    simpa [EthMem.ptrs] using hnull
  unfold myEthMemMalloc
  rw [if_pos hcond]
  simp only [acquire, mallocAll, ethSizes, zero_mem_four]
  split_ifs <;> exact ⟨rfl, rfl⟩

theorem myEthMemMalloc_of_set {g : EthMem} (hset : ∃ p ∈ g.ptrs, p ≠ 0) (w : World) :
    myEthMemMalloc m g w = (1, g, freeAll m .eth w g.ptrs) := by
  have hcond : ¬ (g.pgDmaRxDscrTab = 0 ∧ g.pgDmaTxDscrTab = 0 ∧ g.pgRxBuff = 0 ∧
      g.pgTxBuff = 0) := by
    rintro ⟨h1, h2, h3, h4⟩
    obtain ⟨p, hp, h0⟩ := hset
    simp only [EthMem.ptrs, h1, h2, h3, h4, List.mem_cons, List.not_mem_nil, or_false, or_self] at hp
    exact h0 hp
  unfold myEthMemMalloc
  rw [if_neg hcond, myEthMemFree_eq]

theorem lwipCommMemMalloc_eq (n : U32) (w : World) :
    (lwipCommMemMalloc m n w).2.1.ptrs = (mallocAll m .lwip w [n, ramHeapSize]).1 ∧
    (lwipCommMemMalloc m n w).2.2 = acquire m .lwip w [n, ramHeapSize] := by
  unfold lwipCommMemMalloc
  simp only [acquire, mallocAll, List.mem_cons, List.not_mem_nil, or_false, eq_comm]
  split_ifs <;> exact ⟨rfl, rfl⟩

end Stm32F407
