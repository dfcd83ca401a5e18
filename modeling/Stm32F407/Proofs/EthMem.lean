import Stm32F407.Proofs.MemClients

/-! What `my_eth_mem_malloc` promises: all four blocks or none, and the table as it
was when it fails. Nothing here assumes that releases are safe, so the state of
the bank is described only by what every call of `my_malloc` and `my_free` keeps,
and the four requests of one call as blocks laid over the table they found. -/

namespace Stm32F407

open Lib

variable {m : Sram} {s s' : BankState} {w : World} {o : Owner} {p size : U32}

/-- A table still to be initialised is zero, and no cell holds more than the number of blocks. -/
structure BankInv (m : Sram) (s : BankState) : Prop where
  zero : s.memrdy = 0 → ∀ j < m.memtblsize, s.memmap j = 0
  cells : ∀ j < m.memtblsize, (s.memmap j).toNat ≤ m.memtblsize

inductive Handed (m : Sram) (s : BankState) (size p : U32) (map : ℕ → U32) : Prop
  | null (hp : p = 0) (hmap : map = s.memmap)
  | block (q : ℕ) (hp : p ≠ 0) (hoff : (p - m.membase).toNat = q * m.memblksize)
      (hpos : 0 < size.toNat ⌈/⌉ m.memblksize)
      (hin : q + size.toNat ⌈/⌉ m.memblksize ≤ m.memtblsize)
      (hfree : ∀ j, q ≤ j → j < q + size.toNat ⌈/⌉ m.memblksize → s.memmap j = 0)
      (hmap : map = fill s.memmap q (BitVec.ofNat 32 (size.toNat ⌈/⌉ m.memblksize))
        (size.toNat ⌈/⌉ m.memblksize))

theorem myMalloc_handed (h : BankInv m s) (size : U32) :
    (myMalloc m s size).2.memrdy ≠ 0 ∧
      Handed m s size (myMalloc m s size).1 (myMalloc m s size).2.memmap := by
  have hres := myMemMalloc_result m.toBank s size
  refine ⟨myMalloc_memrdy s size, ?_⟩
  have hmap := ensureInit_memmap (b := m.toBank) h.zero
  unfold myMalloc
  simp only
  generalize myMemMalloc m.toBank s size = r at hres ⊢
  obtain ⟨off, s'⟩ := r
  simp only at hres ⊢
  cases hres with
  | fail => exact .null (by simp) (by simpa using hmap)
  | found q _ hpos hin hfree hoff =>
    rw [if_neg (MallocResult.off_ne hpos hin hoff)]
    rw [blocksFor_eq] at hpos hin hfree ⊢
    rw [hmap] at hfree
    have hlt : off.toNat < m.memsize := by
      rw [hoff, m.size_eq]
      exact Nat.mul_lt_mul_of_pos_right (by omega) m.blk_pos
    refine .block q (membase_add_ne hlt) ?_ hpos hin hfree (by rw [hmap])
    rw [BitVec.add_comm, BitVec.add_sub_cancel, hoff]

theorem BankInv.malloc (h : BankInv m s) (size : U32) : BankInv m (myMalloc m s size).2 := by
  obtain ⟨hr, hres⟩ := myMalloc_handed h size
  refine ⟨fun h0 => absurd h0 hr, fun j hj => ?_⟩
  rcases hres with ⟨-, hmap⟩ | ⟨q, -, -, -, hin, -, hmap⟩
  · rw [hmap]
    exact h.cells j hj
  · have hlt := blocks_lt hin
    rw [hmap, fill_apply]
    split_ifs
    · rw [BitVec.toNat_ofNat, Nat.mod_eq_of_lt (by omega)]
      omega
    · exact h.cells j hj

theorem BankInv.free (h : BankInv m s) (p : U32) : BankInv m (myFree m s p) := by
  unfold myFree myMemFree
  split_ifs with h0 hr hoff
  · exact h
  · have hmap := ensureInit_memmap (b := m.toBank) h.zero
    rw [ensureInit, if_pos hr] at hmap
    refine ⟨fun h1 => absurd h1 (by simp [myMemInit]), fun j hj => ?_⟩
    simp only [hmap]
    exact h.cells j hj
  · refine ⟨fun h1 => absurd h1 hr, fun j hj => ?_⟩
    simp only [fill_apply]
    split_ifs
    · simp
    · exact h.cells j hj
  · exact h

theorem BankInv.mallocAll (h : BankInv m w.bank) (ns : List U32) :
    BankInv m (mallocAll m o w ns).2.bank := by
  induction ns generalizing w with
  | nil => exact h
  | cons n ns ih => exact ih (h.malloc n)

theorem BankInv.freeAll (h : BankInv m w.bank) (ps : List U32) :
    BankInv m (freeAll m o w ps).bank := by
  induction ps generalizing w with
  | nil => exact h
  | cons p ps ih => exact ih (h.free p)

theorem BankInv.acquire (h : BankInv m w.bank) (ns : List U32) :
    BankInv m (acquire m o w ns).bank := by
  unfold Stm32F407.acquire
  simp only
  split_ifs
  · exact (h.mallocAll ns).freeAll _
  · exact h.mallocAll ns

def InBank (m : Sram) (p : U32) : Prop :=
  p ≠ 0 → (p - m.membase).toNat < m.memsize ∧ m.memblksize ∣ (p - m.membase).toNat

theorem myMalloc_inBank (h : BankInv m s) (size : U32) : InBank m (myMalloc m s size).1 := by
  intro h0
  rcases (myMalloc_handed h size).2 with ⟨hp, -⟩ | ⟨q, -, hoff, hpos, hin, -, -⟩
  · exact absurd hp h0
  · rw [hoff, m.size_eq]
    exact ⟨Nat.mul_lt_mul_of_pos_right (by omega) m.blk_pos, Nat.dvd_mul_left _ _⟩

theorem mallocAll_inBank (h : BankInv m w.bank) (ns : List U32) :
    ∀ p ∈ (mallocAll m o w ns).1, InBank m p := by
  induction ns generalizing w with
  | nil => simp [mallocAll]
  | cons n ns ih =>
    intro p hp
    rcases List.mem_cons.mp hp with rfl | hp
    · exact myMalloc_inBank h n
    · exact ih (h.malloc n) p hp

structure EthInv (m : Sram) (s : MemSystem) : Prop where
  bank : BankInv m s.world.bank
  ptrs : ∀ p ∈ s.eth.ptrs, InBank m p

theorem MemSystem.start_ethInv : EthInv m MemSystem.start where
  bank := ⟨fun _ _ _ => rfl, fun _ _ => Nat.zero_le _⟩
  ptrs p hp h0 := by
    simp [MemSystem.start, EthMem.ptrs] at hp
    exact absurd hp h0

theorem memStep_ethInv {s s' : MemSystem} {e : MemEvent} (h : EthInv m s) (hs : MemStep m s e s') :
    EthInv m s' := by
  cases hs with
  | ethMalloc =>
    by_cases hnull : ∀ p ∈ s.eth.ptrs, p = 0
    · obtain ⟨hptrs, hworld⟩ := myEthMemMalloc_of_null (m := m) hnull s.world
      refine ⟨?_, ?_⟩
      · simp only [hworld]
        exact h.bank.acquire _
      · simp only [hptrs]
        exact mallocAll_inBank h.bank _
    · push Not at hnull
      rw [myEthMemMalloc_of_set hnull]
      exact ⟨h.bank.freeAll _, h.ptrs⟩
  | ethFree => exact ⟨h.bank.freeAll s.eth.ptrs, h.ptrs⟩
  | lwipMalloc n =>
    refine ⟨?_, h.ptrs⟩
    simp only [(lwipCommMemMalloc_eq n s.world).2]
    exact h.bank.acquire _
  | lwipFree => exact ⟨h.bank.freeAll s.lwip.ptrs, h.ptrs⟩
  | clientMalloc n => exact ⟨h.bank.malloc n, h.ptrs⟩
  | clientFree a ha ho => exact ⟨h.bank.free a.ptr, h.ptrs⟩

def AllFit (m : Sram) : BankState → List U32 → Prop
  | _, [] => True
  | s, n :: ns => (myMalloc m s n).1 ≠ 0 ∧ AllFit m (myMalloc m s n).2 ns

instance AllFit.decidable (m : Sram) : (s : BankState) → (ns : List U32) → Decidable (AllFit m s ns)
  | _, [] => inferInstanceAs (Decidable True)
  | s, n :: ns =>
      have := AllFit.decidable m (myMalloc m s n).2 ns
      inferInstanceAs (Decidable ((myMalloc m s n).1 ≠ 0 ∧ AllFit m (myMalloc m s n).2 ns))

theorem allFit_iff (ns : List U32) : AllFit m w.bank ns ↔ 0 ∉ (mallocAll m o w ns).1 := by
  induction ns generalizing w with
  | nil => simp [AllFit, mallocAll]
  | cons n ns ih =>
    have hih := ih (w := (w.malloc m o n).2)
    simp only [AllFit, mallocAll, List.mem_cons, not_or]
    exact and_congr ne_comm hih

/-- The table is `map₀` with the blocks `L` laid over free cells of it. -/
structure Laid (m : Sram) (map₀ map : ℕ → U32) (L : List Block) : Prop where
  table : Overlay m.memtblsize (fun j => (map₀ j).toNat) (fun j => (map j).toNat) L
  frame : ∀ j, m.memtblsize ≤ j → map j = map₀ j

theorem Laid.nil (map : ℕ → U32) : Laid m map map [] :=
  ⟨Overlay.nil fun _ _ => rfl, fun _ _ => rfl⟩

theorem Laid.eq {map₀ map : ℕ → U32} (h : Laid m map₀ map []) : map = map₀ := by
  funext j
  rcases Nat.lt_or_ge j m.memtblsize with hj | hj
  · exact BitVec.eq_of_toNat_eq (h.table.rest j hj (by simp))
  · exact h.frame j hj

theorem Laid.perm {map₀ map : ℕ → U32} {L L' : List Block} (h : Laid m map₀ map L)
    (hp : L.Perm L') : Laid m map₀ map L' :=
  ⟨h.table.perm hp, h.frame⟩

/-- A pointer that was handed out stands for one more block. -/
theorem Laid.malloc {map₀ map : ℕ → U32} {L : List Block} (h : Laid m map₀ s.memmap L)
    (hres : Handed m s size p map) (hp : p ≠ 0) :
    Laid m map₀ map (Held.block m ⟨o, p, size⟩ :: L) := by
  rcases hres with ⟨h0, -⟩ | ⟨q, -, hoff, hpos, hin, hfree, hmap⟩
  · exact absurd h0 hp
  have hlt := blocks_lt hin
  have hblock : Held.block m ⟨o, p, size⟩ = ⟨q, size.toNat ⌈/⌉ m.memblksize⟩ := by
    rw [Held.block, Held.alloc, Alloc.block, hoff, Nat.mul_div_cancel _ m.blk_pos]
  rw [hblock, hmap]
  refine ⟨h.table.add hpos hin ?_ ?_ ?_, fun j hj => ?_⟩
  · intro j hj
    simp [hfree j hj.1 hj.2]
  · intro j hj
    simp only [fill_inside _ _ hj.1 hj.2, BitVec.toNat_ofNat]
    exact Nat.mod_eq_of_lt (by omega)
  · intro j hj
    rw [Block.mem_iff] at hj
    simp only at hj ⊢
    rw [fill_outside _ _ (by omega)]
  · rw [fill_outside _ _ (by omega)]
    exact h.frame j hj

/-- Releasing one of the blocks through its pointer takes it away. -/
theorem Laid.free {map₀ : ℕ → U32} {L : List Block} {n : U32} (hr : s.memrdy ≠ 0) (hp : p ≠ 0)
    (hin : InBank m p) (h : Laid m map₀ s.memmap (Held.block m ⟨o, p, n⟩ :: L)) :
    Laid m map₀ (myFree m s p).memmap L ∧ (myFree m s p).memrdy ≠ 0 := by
  have hmark := h.table.mark_start (b := Held.block m ⟨o, p, n⟩) (by simp)
  have hend := h.table.inside (Held.block m ⟨o, p, n⟩) (by simp)
  set b := Held.block m ⟨o, p, n⟩ with hb
  have hlen := blocks_lt (b := m.toBank) hend
  have hstart : b.start = (p - m.membase).toNat / m.memblksize := rfl
  have hint : (s.memmap b.start).toInt.toNat = b.len := by
    rw [BitVec.toInt_eq_toNat_of_lt (by omega), hmark, Int.toNat_natCast]
  have hfree : myFree m s p = { s with memmap := fill s.memmap b.start 0 b.len } := by
    rw [myFree, if_neg hp, myMemFree, if_neg hr, if_pos (hin hp).1]
    simp only [← hstart, hint]
  rw [hfree]
  refine ⟨⟨h.table.remove ?_ ?_, fun j hj => ?_⟩, hr⟩
  · intro j hj
    simp [fill_inside _ _ hj.1 hj.2]
  · intro j hj
    rw [Block.mem_iff] at hj
    simp only
    rw [fill_outside _ _ (by omega)]
  · simp only
    rw [fill_outside _ _ (by omega)]
    exact h.frame j hj

theorem Laid.mallocAll {map₀ : ℕ → U32} {L : List Block} (h : BankInv m w.bank)
    (hlaid : Laid m map₀ w.bank.memmap L) (ns : List U32) :
    Laid m map₀ (mallocAll m o w ns).2.bank.memmap
      ((obtained o (mallocAll m o w ns).1 ns).map (Held.block m) ++ L) := by
  induction ns generalizing w L with
  | nil => simpa [obtained, Stm32F407.mallocAll] using hlaid
  | cons n ns ih =>
    have hres := (myMalloc_handed h n).2
    by_cases hp : (w.malloc m o n).1 = 0
    · have hmap : (w.malloc m o n).2.bank.memmap = w.bank.memmap := by
        rcases hres with ⟨-, hmap⟩ | ⟨q, h0, -, -, -, -, -⟩
        · exact hmap
        · exact absurd hp h0
      have hrest := ih (w := (w.malloc m o n).2) (h.malloc n) (hmap ▸ hlaid)
      simp only [Stm32F407.mallocAll, hp, obtained_cons_null]
      exact hrest
    · have hrest := ih (w := (w.malloc m o n).2) (h.malloc n) (hlaid.malloc (o := o) hres hp)
      simp only [Stm32F407.mallocAll]
      rw [obtained_cons hp]
      exact hrest.perm List.perm_middle

theorem World.free_null (w : World) : (w.free m o 0).bank = w.bank := by
  simp [World.free, myFree]

theorem Laid.freeAll {map₀ : ℕ → U32} {ps ns : List U32} (hlen : ps.length = ns.length)
    (hr : (∃ p ∈ ps, p ≠ 0) → w.bank.memrdy ≠ 0) (hin : ∀ p ∈ ps, InBank m p)
    (h : Laid m map₀ w.bank.memmap ((obtained o ps ns).map (Held.block m))) :
    (freeAll m o w ps).bank.memmap = map₀ := by
  induction ps generalizing w ns with
  | nil =>
    rw [show obtained o [] ns = [] from rfl] at h
    exact h.eq
  | cons p ps ih =>
    obtain ⟨n, ns, rfl⟩ : ∃ n ns', ns = n :: ns' := by
      cases ns with
      | nil => simp at hlen
      | cons n ns => exact ⟨n, ns, rfl⟩
    have hlen' : ps.length = ns.length := by simpa using hlen
    have hin' : ∀ q ∈ ps, InBank m q := fun q hq => hin q (by simp [hq])
    by_cases hp : p = 0
    · subst hp
      rw [obtained_cons_null] at h
      refine ih (w := w.free m o 0) hlen' ?_ hin' (by rwa [World.free_null])
      rintro ⟨q, hq, hq0⟩
      rw [World.free_null]
      exact hr ⟨q, by simp [hq], hq0⟩
    · rw [obtained_cons hp] at h
      obtain ⟨hlaid, hrdy⟩ := Laid.free (hr ⟨p, by simp, hp⟩) hp (hin p (by simp)) h
      exact ih (w := w.free m o p) hlen' (fun _ => hrdy) hin' hlaid

theorem mallocAll_keeps_ready (h : BankInv m w.bank) (hr : w.bank.memrdy ≠ 0) (ns : List U32) :
    (mallocAll m o w ns).2.bank.memrdy ≠ 0 := by
  induction ns generalizing w with
  | nil => exact hr
  | cons n ns ih => exact ih (h.malloc n) (myMalloc_handed h n).1

theorem mallocAll_ready (h : BankInv m w.bank) {ns : List U32}
    (hp : ∃ p ∈ (mallocAll m o w ns).1, p ≠ 0) : (mallocAll m o w ns).2.bank.memrdy ≠ 0 := by
  cases ns with
  | nil => simp [mallocAll] at hp
  | cons n ns =>
    exact mallocAll_keeps_ready (w := (w.malloc m o n).2) (h.malloc n) (myMalloc_handed h n).1 ns

theorem mallocAll_length (ns : List U32) : (mallocAll m o w ns).1.length = ns.length := by
  induction ns generalizing w with
  | nil => rfl
  | cons n ns ih => exact congrArg (· + 1) ih

/-- A series of requests followed by the release of what it gave restores the table. -/
theorem freeAll_mallocAll (h : BankInv m w.bank) (ns : List U32) :
    (freeAll m o (mallocAll m o w ns).2 (mallocAll m o w ns).1).bank.memmap = w.bank.memmap := by
  have hlaid := Laid.mallocAll (o := o) h (Laid.nil w.bank.memmap) ns
  rw [List.append_nil] at hlaid
  exact Laid.freeAll (mallocAll_length ns) (mallocAll_ready h) (mallocAll_inBank h ns) hlaid

/-- The pointers `ps` are live allocations of `o` for the sizes `ns`: blocks that were free
before the call, each with room for its size, no two of which share a cell. -/
structure Obtained (m : Sram) (o : Owner) (w w' : World) (ps ns : List U32) : Prop where
  nonNull : 0 ∉ ps
  held : ∀ a ∈ List.zipWith (Held.mk o) ps ns, a ∈ w'.held
  aligned : ∀ p ∈ ps, m.memblksize ∣ (p - m.membase).toNat
  room : ∀ a ∈ List.zipWith (Held.mk o) ps ns, a.size.toNat ≤ (a.block m).len * m.memblksize
  inside : ∀ a ∈ List.zipWith (Held.mk o) ps ns,
    (a.block m).start + (a.block m).len ≤ m.memtblsize
  apart : ((List.zipWith (Held.mk o) ps ns).map (Held.block m)).Pairwise Block.Apart
  free : ∀ a ∈ List.zipWith (Held.mk o) ps ns, ∀ j ∈ a.block m, w.bank.memmap j = 0
  marked : ∀ a ∈ List.zipWith (Held.mk o) ps ns, ∀ j ∈ a.block m,
    (w'.bank.memmap j).toNat = (a.block m).len

theorem obtained_of_nonNull {ps ns : List U32} (h : 0 ∉ ps) :
    obtained o ps ns = List.zipWith (Held.mk o) ps ns := by
  apply List.filter_eq_self.mpr
  intro a ha
  obtain ⟨i, hi, rfl⟩ := List.mem_iff_getElem.mp ha
  simp only [List.getElem_zipWith, ne_eq, decide_not, Bool.not_eq_true', decide_eq_false_iff_not]
  intro h0
  exact h (h0 ▸ List.getElem_mem _)

theorem mallocAll_obtained (h : BankInv m w.bank) {ns : List U32}
    (h0 : 0 ∉ (mallocAll m o w ns).1) :
    Obtained m o w (mallocAll m o w ns).2 (mallocAll m o w ns).1 ns := by
  have hlaid := (Laid.mallocAll (o := o) h (Laid.nil w.bank.memmap) ns).table
  rw [List.append_nil, obtained_of_nonNull h0] at hlaid
  refine ⟨h0, fun a ha => ?_, fun p hp => ?_, fun a _ => ?_, fun a ha => ?_, hlaid.apart,
    fun a ha j hj => ?_, fun a ha j hj => ?_⟩
  · rw [mallocAll_held_eq, obtained_of_nonNull h0]
    exact List.mem_append_left _ (List.mem_reverse.mpr ha)
  · have hne : p ≠ 0 := fun hz => h0 (hz ▸ hp)
    exact (mallocAll_inBank h ns p hp hne).2
  · rw [Held.block, Alloc.block, Nat.mul_comm]
    exact (ceilDiv_le_iff_le_mul m.blk_pos).mp le_rfl
  · exact hlaid.inside _ (List.mem_map_of_mem ha)
  · exact BitVec.eq_of_toNat_eq (hlaid.free _ (List.mem_map_of_mem ha) j hj)
  · exact hlaid.mark _ (List.mem_map_of_mem ha) j hj

/-- All or nothing, and all whenever the four requests fit. -/
structure EthContract (m : Sram) (g : EthMem) (w : World) : Prop where
  outcome : ((myEthMemMalloc m g w).1 = 0 ∧
      Obtained m .eth w (myEthMemMalloc m g w).2.2 (myEthMemMalloc m g w).2.1.ptrs ethSizes) ∨
    ((myEthMemMalloc m g w).1 = 1 ∧
      (myEthMemMalloc m g w).2.2.bank.memmap = w.bank.memmap)
  complete : AllFit m w.bank ethSizes → (myEthMemMalloc m g w).1 = 0

def cellOf (m : Sram) (p : U32) : ℕ := (p - m.membase).toNat / m.memblksize

theorem myEthMemMalloc_status {g : EthMem} (hnull : ∀ p ∈ g.ptrs, p = 0) (w : World) :
    (myEthMemMalloc m g w).1 = if 0 ∈ (mallocAll m .eth w ethSizes).1 then 1 else 0 := by
  have hcond : g.pgDmaRxDscrTab = 0 ∧ g.pgDmaTxDscrTab = 0 ∧ g.pgRxBuff = 0 ∧ g.pgTxBuff = 0 := by
    simpa [EthMem.ptrs] using hnull
  unfold myEthMemMalloc
  rw [if_pos hcond]
  simp only [mallocAll, ethSizes, zero_mem_four]
  split_ifs <;> rfl

theorem ethContract_of_null {g : EthMem} (h : BankInv m w.bank) (hnull : ∀ p ∈ g.ptrs, p = 0) :
    EthContract m g w := by
  have hstatus := myEthMemMalloc_status (m := m) hnull w
  obtain ⟨hptrs, hworld⟩ := myEthMemMalloc_of_null (m := m) hnull w
  by_cases h0 : 0 ∈ (mallocAll m .eth w ethSizes).1
  · refine ⟨Or.inr ⟨by rw [hstatus, if_pos h0], ?_⟩, fun hfit => ?_⟩
    · rw [hworld, acquire]
      simp only [if_pos h0]
      exact freeAll_mallocAll h ethSizes
    · exact absurd h0 ((allFit_iff ethSizes).mp hfit)
  · refine ⟨Or.inl ⟨by rw [hstatus, if_neg h0], ?_⟩, fun _ => by rw [hstatus, if_neg h0]⟩
    rw [hptrs, hworld, acquire]
    simp only [if_neg h0]
    exact mallocAll_obtained h h0

/-- After its release the cell a pointer designates is zero. -/
theorem myFree_cellOf (h : BankInv m s) (hp : p ≠ 0) (hin : InBank m p) :
    (myFree m s p).memmap (cellOf m p) = 0 := by
  have hlt := index_lt (b := m.toBank) (hin hp).1
  by_cases hcell : s.memmap (cellOf m p) = 0
  · rw [(myFree_stale h.zero (Or.inr hcell)).1, hcell]
  · have hr : s.memrdy ≠ 0 := fun hr => hcell (h.zero hr _ hlt)
    have hle := h.cells _ hlt
    have hN := memtblsize_le m.toBank
    have hsize := m.size_lt
    have hpos : (s.memmap (cellOf m p)).toNat ≠ 0 :=
      fun hz => hcell (BitVec.eq_of_toNat_eq hz)
    rw [myFree, if_neg hp, myMemFree, if_neg hr, if_pos (hin hp).1]
    refine fill_inside _ _ le_rfl ?_
    rw [cellOf] at hpos
    rw [BitVec.toInt_eq_toNat_of_lt (by omega), Int.toNat_natCast]
    simp only [cellOf]
    omega

theorem freeAll_cellOf {ps : List U32} (h : BankInv m w.bank) (hin : ∀ p ∈ ps, InBank m p)
    (hp : p ∈ ps) (h0 : p ≠ 0) : (freeAll m o w ps).bank.memmap (cellOf m p) = 0 := by
  induction ps generalizing w with
  | nil => simp at hp
  | cons q ps ih =>
    rcases List.mem_cons.mp hp with rfl | hp
    · exact freeAll_keeps_zero (w := w.free m o p) ps (myFree_cellOf h h0 (hin p (by simp)))
    · exact ih (w := w.free m o q) (h.free q) (fun r hr => hin r (by simp [hr])) hp

/-- Releasing pointers to free cells leaves the table. -/
theorem freeAll_of_free {ps : List U32} (h : BankInv m w.bank)
    (hcell : ∀ p ∈ ps, p ≠ 0 → w.bank.memmap (cellOf m p) = 0) :
    (freeAll m o w ps).bank.memmap = w.bank.memmap := by
  induction ps generalizing w with
  | nil => rfl
  | cons p ps ih =>
    have hmap : (w.free m o p).bank.memmap = w.bank.memmap := by
      refine (myFree_stale h.zero ?_).1
      by_cases hp : p = 0
      · exact Or.inl hp
      · exact Or.inr (hcell p (by simp) hp)
    have hrest := ih (w := w.free m o p) (h.free p) fun q hq hq0 => by
      rw [hmap]
      exact hcell q (by simp [hq]) hq0
    exact hrest.trans hmap

theorem ethContract_of_set {g : EthMem} (h : BankInv m w.bank) (hin : ∀ p ∈ g.ptrs, InBank m p)
    (hset : ∃ p ∈ g.ptrs, p ≠ 0) :
    EthContract m g w ↔ ¬ AllFit m w.bank ethSizes ∧
      ∀ p ∈ g.ptrs, p ≠ 0 → w.bank.memmap (cellOf m p) = 0 := by
  have hcall := myEthMemMalloc_of_set (m := m) hset w
  have h1 : (1 : U8) ≠ 0 := by decide
  constructor
  · intro hc
    have hmap : (freeAll m .eth w g.ptrs).bank.memmap = w.bank.memmap := by
      rcases hc.outcome with ⟨hz, -⟩ | ⟨-, hmap⟩
      · rw [hcall] at hz
        exact absurd hz h1
      · rwa [hcall] at hmap
    refine ⟨fun hfit => ?_, fun p hp h0 => ?_⟩
    · have hz := hc.complete hfit
      rw [hcall] at hz
      exact h1 hz
    · rw [← hmap]
      exact freeAll_cellOf h hin hp h0
  · rintro ⟨hfit, hcell⟩
    refine ⟨Or.inr ?_, fun hf => absurd hf hfit⟩
    rw [hcall]
    exact ⟨rfl, freeAll_of_free h hcell⟩

/-- In every reachable state a call keeps the contract exactly when its four globals are
NULL, or the requests would not all fit and every global that is set points at a free
block. -/
theorem ethContract_iff (m : Sram) (evs : List MemEvent) (s : MemSystem)
    (hrun : Run (MemStep m) MemSystem.start evs s) :
    EthContract m s.eth s.world ↔ (∀ p ∈ s.eth.ptrs, p = 0) ∨
      (¬ AllFit m s.world.bank ethSizes ∧
        ∀ p ∈ s.eth.ptrs, p ≠ 0 → s.world.bank.memmap (cellOf m p) = 0) := by
  have hinv : EthInv m s := hrun.invariant MemSystem.start_ethInv fun _ _ _ => memStep_ethInv
  by_cases hnull : ∀ p ∈ s.eth.ptrs, p = 0
  · exact ⟨fun _ => Or.inl hnull, fun _ => ethContract_of_null hinv.bank hnull⟩
  · have hset : ∃ p ∈ s.eth.ptrs, p ≠ 0 := by
      push Not at hnull
      exact hnull
    rw [ethContract_of_set hinv.bank hinv.ptrs hset, or_iff_right hnull]

/-- The first call keeps the contract, whatever a client did before. -/
theorem ethContract_iff_first : ∃ s, Run (MemStep sramIn) MemSystem.start [.clientMalloc 192] s ∧
    EthContract sramIn s.eth s.world := by
  obtain ⟨s, hs, heth⟩ : ∃ s, MemStep sramIn MemSystem.start (.clientMalloc 192) s ∧
      s.eth = ⟨0, 0, 0, 0⟩ := ⟨_, .clientMalloc _ _, rfl⟩
  have hnull : ∀ p ∈ s.eth.ptrs, p = 0 := by simp [heth, EthMem.ptrs]
  exact ⟨s, Run.single hs, (ethContract_iff sramIn _ s (Run.single hs)).mpr (Or.inl hnull)⟩

theorem ethPtrs_empty (hb : BankInv sramIn w.bank) (hz : ∀ j < 480, w.bank.memmap j = 0) :
    (mallocAll sramIn .eth w ethSizes).1 = [0x20007740, 0x20007680, 0x20005880, 0x20003A80] := by
  have hsum : (ethSizes.map fun n => n.toNat ⌈/⌉ sramIn.memblksize).sum ≤ 480 := by decide +kernel
  have hpos : 0 ∉ ethSizes := by decide +kernel
  have hlist : stackPtrs sramIn 480 ethSizes =
      [0x20007740, 0x20007680, 0x20005880, 0x20003A80] := by decide +kernel
  have hk : Stacked sramIn.memtblsize w.bank.memmap 480 := stacked_empty hz
  rw [(mallocAll_stacked hb.zero hk hpos hsum).1, hlist]

/-- The four requests fit in an empty bank. -/
theorem allFit_empty (hb : BankInv sramIn s) (hz : ∀ j < 480, s.memmap j = 0) :
    AllFit sramIn s ethSizes := by
  have hptrs := ethPtrs_empty (w := ⟨s, [], []⟩) hb hz
  rw [allFit_iff (w := ⟨s, [], []⟩) (o := .eth), hptrs]
  decide

/-- Obtained and released: the bank is empty again, but the globals are set. -/
theorem exists_released {s : MemSystem} (h : EthInv sramIn s) (hnull : ∀ p ∈ s.eth.ptrs, p = 0)
    (hz : ∀ j < 480, s.world.bank.memmap j = 0) (hheld : s.world.held = []) :
    ∃ s', Run (MemStep sramIn) s [.ethMalloc, .ethFree] s' ∧ EthInv sramIn s' ∧
      s'.world.held = [] ∧ (∀ j < 480, s'.world.bank.memmap j = 0) ∧ ∃ p ∈ s'.eth.ptrs, p ≠ 0 := by
  have hptr := ethPtrs_empty h.bank hz
  obtain ⟨s₁, hs₁, hg, -, hw⟩ := exists_ethMalloc hnull hptr (by decide)
  have hs₂ := MemStep.ethFree (m := sramIn) s₁
  have hfree : myEthMemFree sramIn s₁.eth s₁.world =
      freeAll sramIn .eth (mallocAll sramIn .eth s.world ethSizes).2
        (mallocAll sramIn .eth s.world ethSizes).1 := by
    rw [myEthMemFree_eq, hg, hw, hptr]
  refine ⟨_, (Run.single hs₁).snoc hs₂, memStep_ethInv (memStep_ethInv h hs₁) hs₂, ?_, ?_, ?_⟩
  · simp only [hfree]
    rw [freeAll_held, mallocAll_held_eq, hptr, hheld]
    decide
  · simp only [hfree]
    rwa [freeAll_mallocAll h.bank]
  · refine ⟨0x20007740, ?_, by decide⟩
    simp only [hg]
    exact List.mem_cons_self

/-- Obtained, released and asked for again: the bank is empty, but the call fails. -/
theorem not_ethContract :
    ¬ ∀ (m : Sram) (evs : List MemEvent) (s : MemSystem), Run (MemStep m) MemSystem.start evs s →
      (∀ a ∈ s.world.held, a.owner ≠ .eth) → EthContract m s.eth s.world := by
  intro hall
  have hnull : ∀ p ∈ MemSystem.start.eth.ptrs, p = 0 := by simp [MemSystem.start, EthMem.ptrs]
  obtain ⟨s, hrun, hinv, hheld, hz, hset⟩ :=
    exists_released (s := MemSystem.start) MemSystem.start_ethInv hnull (fun _ _ => rfl) rfl
  have hc := hall sramIn _ s hrun (by simp [hheld])
  exact ((ethContract_of_set hinv.bank hinv.ptrs hset).mp hc).1 (allFit_empty hinv.bank hz)

end Stm32F407
