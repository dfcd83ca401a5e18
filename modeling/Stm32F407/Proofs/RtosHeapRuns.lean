import Stm32F407.Proofs.RtosHeapMalloc
import Stm32F407.Lib.Run

/-! The kernel's heap over whole runs of the tasks that use it: what they have been given
lies apart and inside the array, a request is turned down only if there is no gap for it,
and nothing of the history is left but the blocks in use. -/

namespace Stm32F407

open Lib Segs

variable {g : HeapPlace} {n p : U32}

namespace PortHeap

variable {h h' : PortHeap} {L pre post : List (Seg U32)} {u : Block × U32} {b c k : ℕ}

theorem Cut.release (hc : Cut g h (pre ++ .used k n :: post)) (hb : b = heapBase g + Segs.total pre) :
    Loose g { h.setSize (adr b) (adr k) with xFreeBytesRemaining := h.xFreeBytesRemaining + adr k }
      g.xStart.toNat (heapBase g) pre b k post (heapEnd g) := by
  have hends := heap_ends g
  have hout := xStart_outside g
  have htotal := hc.total
  have hsizes := hc.sizes (.used k n) (by simp)
  have hcount := hc.count
  have hsep := (separated_append_used pre post k n).mp hc.separated
  have hchain := hc.chain
  have hhead := hc.head
  have hxlt := g.xStart.isLt
  rw [chain_append, ← hb, nextFree_used] at hchain
  rw [nextFree_append, ← hb, nextFree_used] at hhead
  rw [total_append, total_cons, Seg.len_used] at htotal
  rw [Seg.len_used] at hsizes
  simp only [List.length_append, List.length_cons] at hcount
  have hpre : ∀ s ∈ pre, 0 < s.len := fun s hs => hc.pos s (List.mem_append_left _ hs)
  have hpost : ∀ s ∈ post, 0 < s.len := fun s hs =>
    hc.pos s (List.mem_append_right _ (List.mem_cons_of_mem _ hs))
  have hsame : ∀ d < 2 ^ 32, d ≠ b → (h.setSize (adr b) (adr k)).mem (adr d) = h.mem (adr d) := by
    intro d hd hne
    exact setSize_of_ne h _ (by rw [Ne, adr_inj hd (by omega)]; exact hne)
  have hafter : Chain h.mem (b + k) post (heapEnd g) := hchain.2
  refine ⟨?_, ?_, ?_, ?_, hc.pxEnd, (adr_toNat _).symm, hb.symm, by omega, by omega, hpre, hpost,
    hsep.1, hsep.2, by omega, ⟨hxlt, by omega⟩, by omega⟩
  · exact (hsame _ hxlt (by omega)).trans hhead
  · exact hchain.1.congr (fun d hle hlt => hsame d (by omega) (by omega)) hpre
  · exact congrArg BlockLink.xBlockSize (setSize_self h (adr b) (adr k))
  · exact hafter.congr (fun d hle hlt => hsame d (by omega) (by omega)) hpost

theorem Cut.vPortFree_eq (hc : Cut g h (pre ++ .used k n :: post))
    (hb : b = heapBase g + Segs.total pre) : h.vPortFree g (adr (b + 8)) =
      { ({ h.setSize (adr b) (adr k) with
            xFreeBytesRemaining := h.xFreeBytesRemaining + adr k }.prvInsertBlockIntoFreeList g
              (adr b)) with
        xNumberOfSuccessfulFrees := ({ h.setSize (adr b) (adr k) with
          xFreeBytesRemaining := h.xFreeBytesRemaining + adr k }.prvInsertBlockIntoFreeList g
            (adr b)).xNumberOfSuccessfulFrees + 1 } := by
  have hends := heap_ends g
  have htotal := hc.total
  have hle := hc.total_le
  rw [total_append, total_cons, Seg.len_used] at htotal hle
  have hpv : adr (b + 8) ≠ 0 := by
    rw [show (0 : U32) = adr 0 from rfl, Ne, adr_inj (by omega) (by omega)]
    omega
  have hlink : adr (b + 8) - xHeapStructSize = adr b := by
    rw [show xHeapStructSize = adr 8 from rfl, adr_sub (by omega), Nat.add_sub_cancel]
  have hnode : h.mem (adr b) = ⟨0, adr k ||| heapBLOCK_ALLOCATED_BITMASK⟩ := by
    have hu := hc.used (⟨b, k⟩, n) (by rw [usedAt_append, ← hb]; simp [usedAt])
    exact hu
  have hclear : (adr k ||| heapBLOCK_ALLOCATED_BITMASK) &&& ~~~heapBLOCK_ALLOCATED_BITMASK = adr k := by
    refine or_allocated_clear _ ?_
    rw [BitVec.toNat_ofNat]
    omega
  unfold vPortFree
  simp only [if_pos hpv, hlink, hnode, if_pos (or_allocated_ne_zero (adr k)), if_pos trivial, hclear,
    setSize_self]
  rfl

theorem Cut.free (hc : Cut g h (pre ++ .used k n :: post)) (hb : b = heapBase g + Segs.total pre) :
    Cut g (h.vPortFree g (adr (b + 8))) (coalesce (pre ++ .free k :: post)) ∧
      Counts h (h.vPortFree g (adr (b + 8))) 0 1 := by
  have hl := hc.release hb
  obtain ⟨hchain, hhead, ht⟩ := hl.insert
  rw [hc.vPortFree_eq hb]
  set h₁ : PortHeap := { h.setSize (adr b) (adr k) with
    xFreeBytesRemaining := h.xFreeBytesRemaining + adr k } with hh₁
  have hends := heap_ends g
  have hout := xStart_outside g
  have htotal := hc.total
  have hle := hc.total_le
  have hsizes := hc.sizes (.used k n) (by simp)
  rw [Seg.len_used] at hsizes
  have hxlt := g.xStart.isLt
  have hpre := hl.posBefore
  have hrange := lastFree_range (x := g.xStart.toNat) (a := heapBase g) hpre
  have hfreeTotal : freeTotal (coalesce (pre ++ .free k :: post)) =
      freeTotal (pre ++ .used k n :: post) + k := by
    rw [coalesce_freeTotal, freeTotal_append, freeTotal_append]
    simp only [freeTotal]
    omega
  have hremaining : h₁.xFreeBytesRemaining = adr (freeTotal (coalesce (pre ++ .free k :: post))) := by
    show h.xFreeBytesRemaining + adr k = _
    rw [hc.remaining, adr_add, hfreeTotal]
  have hbound : freeTotal (pre ++ .used k n :: post) + k ≤ 26616 := by
    have hsum := freeTotal_add_used (heapBase g) (pre ++ .used k n :: post)
    rw [usedAt_append, ← hb] at hsum
    simp only [usedAt, List.map_append, List.map_cons, List.sum_append, List.sum_cons] at hsum
    omega
  have hless : h.xFreeBytesRemaining ≤ h₁.xFreeBytesRemaining := by
    rw [hremaining, hc.remaining, BitVec.le_def, BitVec.toNat_ofNat, BitVec.toNat_ofNat, hfreeTotal]
    omega
  have hsame : ∀ d < 2 ^ 32, d ≠ lastFree g.xStart.toNat (heapBase g) pre → d ≠ b →
      (h₁.prvInsertBlockIntoFreeList g (adr b)).mem (adr d) = h.mem (adr d) := by
    intro d hd hdy hdb
    rw [total_append, total_cons, Seg.len_used] at htotal
    have hdb' : adr d ≠ adr b := by
      rw [Ne, adr_inj hd (by omega)]
      exact hdb
    refine (ht.mem _ ?_).trans (setSize_of_ne h _ hdb')
    rw [adr_inj hd (by omega), adr_inj hd (by omega)]
    omega
  have hused : ∀ u ∈ usedAt (heapBase g) (coalesce (pre ++ .free k :: post)),
      u ∈ usedAt (heapBase g) pre ∨ u ∈ usedAt (b + k) post := by
    intro u hu
    rw [coalesce_usedAt, usedAt_append, ← hb] at hu
    exact List.mem_append.mp hu
  have hold : ∀ u, u ∈ usedAt (heapBase g) pre ∨ u ∈ usedAt (b + k) post →
      u ∈ usedAt (heapBase g) (pre ++ .used k n :: post) := by
    intro u hu
    rw [usedAt_append, ← hb]
    exact List.mem_append.mpr (hu.imp id fun hu => List.mem_cons_of_mem _ hu)
  rw [total_append, total_cons, Seg.len_used] at htotal
  refine ⟨⟨?_, hhead, hchain, fun u hu => ?_, ?_, ?_, coalesce_separated _, ?_, fun u hu => ?_, ?_, ?_⟩,
    ⟨ht.pxEnd, ?_, ?_, ?_⟩⟩
  · exact ht.pxEnd.trans hc.pxEnd
  · have hne : u.1.start ≠ lastFree g.xStart.toNat (heapBase g) pre ∧ u.1.start ≠ b ∧
        u.1.start < 2 ^ 32 := by
      rcases hused u hu with hu | hu
      · have hstart := usedAt_start_le hu
        have hne := lastFree_ne_used (x := g.xStart.toNat) hpre (by omega) hu
        have hpos : 0 < u.1.len := by
          obtain ⟨p₁, p₂, heq, -⟩ := usedAt_mem hu
          exact hpre (.used u.1.len u.2) (by rw [heq]; simp)
        exact ⟨hne, by omega, by omega⟩
      · have hstart := usedAt_start_le hu
        exact ⟨by omega, by omega, by omega⟩
    exact (hsame u.1.start hne.2.2 hne.1 hne.2.1).trans (hc.used u (hold u (hused u hu)))
  · exact (hsame (heapEnd g) (by omega) (by omega) (by omega)).trans hc.last
  · rw [coalesce_total, total_append, total_cons, Seg.len_free]
    exact htotal
  · refine coalesce_forall (P := fun m => 16 ≤ m ∧ m % 8 = 0) (fun m m' hm hm' => by omega) fun s hs => ?_
    rcases List.mem_append.mp hs with hs | hs
    · exact hc.sizes s (List.mem_append_left _ hs)
    · rcases List.mem_cons.mp hs with rfl | hs
      · exact hsizes
      · exact hc.sizes s (List.mem_append_right _ (List.mem_cons_of_mem _ hs))
  · exact hc.wanted u (hold u (hused u hu))
  · exact ht.remaining.trans hremaining
  · show (h₁.prvInsertBlockIntoFreeList g (adr b)).xMinimumEverFreeBytesRemaining ≤
      (h₁.prvInsertBlockIntoFreeList g (adr b)).xFreeBytesRemaining
    rw [ht.minimum, ht.remaining]
    exact BitVec.le_trans hc.least hless
  · show (h₁.prvInsertBlockIntoFreeList g (adr b)).xMinimumEverFreeBytesRemaining =
      if (h₁.prvInsertBlockIntoFreeList g (adr b)).xFreeBytesRemaining < _ then _ else _
    rw [ht.minimum, ht.remaining, if_neg (BitVec.not_lt.mpr (BitVec.le_trans hc.least hless))]
    rfl
  · exact ht.allocations.trans (BitVec.add_zero _).symm
  · show (h₁.prvInsertBlockIntoFreeList g (adr b)).xNumberOfSuccessfulFrees + 1 = _
    rw [ht.frees]
    rfl

def ready (g : HeapPlace) (h : PortHeap) : PortHeap := if h.pxEnd = 0 then h.prvHeapInit g else h

theorem ready_of_ne (hne : h.pxEnd ≠ 0) : h.ready g = h := if_neg hne

theorem Cut.ready (hc : Cut g h L) : Cut g (h.ready g) L := by
  rw [ready_of_ne hc.pxEnd_ne]
  exact hc

theorem pvPortMalloc_ready (g : HeapPlace) (h : PortHeap) (n : U32) :
    h.pvPortMalloc g n = (h.ready g).pvPortMalloc g n := by
  by_cases hz : h.pxEnd = 0
  · have hne := (prvHeapInit_cut g h).pxEnd_ne
    have hr : h.ready g = h.prvHeapInit g := if_pos hz
    unfold pvPortMalloc
    simp only [hr, if_pos hz, if_neg hne]
  · rw [ready_of_ne hz]

theorem Cut.of_mem (hc : Cut g h L) {mem : U32 → BlockLink}
    (hx : mem (adr g.xStart.toNat) = h.mem (adr g.xStart.toNat))
    (hm : ∀ pre post, L = pre ++ post →
      mem (adr (heapBase g + Segs.total pre)) = h.mem (adr (heapBase g + Segs.total pre))) :
    Cut g { h with mem := mem } L := by
  refine ⟨hc.pxEnd, hx.trans hc.head, ?_, fun u hu => ?_, ?_, hc.total, hc.separated, hc.sizes,
    hc.wanted, hc.remaining, hc.least⟩
  · exact hc.chain.congr_at fun pre s post heq => hm pre (s :: post) heq
  · obtain ⟨pre, post, heq, hstart⟩ := usedAt_mem hu
    show mem _ = _
    rw [hstart, hm pre _ heq, ← hstart]
    exact hc.used u hu
  · have hlast := hm L [] (by rw [List.append_nil])
    rw [hc.total] at hlast
    exact hlast.trans hc.last

end PortHeap

namespace HeapTasks

open PortHeap

variable {s s' : HeapTasks} {L pre post : List (Seg U32)} {k : ℕ} {e : HeapCall} {evs : List HeapCall}
  {mem : U32 → BlockLink} {u : Block × U32} {b : LiveBlock}

def liveBlock (u : Block × U32) : LiveBlock := ⟨adr (u.1.start + 8), u.2⟩

structure Inv (g : HeapPlace) (s : HeapTasks) (L : List (Seg U32)) : Prop where
  cut : Cut g (s.heap.ready g) L
  live : ((usedAt (heapBase g) L).map liveBlock).Perm s.live
  fresh : s.heap.pxEnd = 0 → s.live = []

theorem start_inv (g : HeapPlace) (mem : U32 → BlockLink) :
    Inv g (start mem) [.free (heapEnd g - heapBase g)] :=
  ⟨prvHeapInit_cut g _, List.Perm.refl _, fun _ => rfl⟩

theorem used_bounds (hc : Cut g (s.heap.ready g) L) (hu : u ∈ usedAt (heapBase g) L) :
    heapBase g ≤ u.1.start ∧ u.1.start + u.1.len ≤ heapEnd g ∧ 16 ≤ u.1.len ∧
      u.1.start % 8 = 0 ∧ u.2.toNat + 8 < u.1.len := by
  have hrange := usedAt_start_le hu
  have htotal := hc.total
  have hwanted := hc.wanted u hu
  have hspec := allocSize_spec u.2
  have hends := heap_ends g
  obtain ⟨pre, post, heq, hstart⟩ := usedAt_mem hu
  have hmod : ∀ M : List (Seg U32), (∀ t ∈ M, t.len % 8 = 0) → Segs.total M % 8 = 0 := by
    intro M
    induction M with
    | nil => simp
    | cons t M ih =>
      intro hM
      have ht := hM t (by simp)
      have hrest := ih fun r hr => hM r (List.mem_cons_of_mem _ hr)
      rw [total_cons]
      omega
  have hpre := hmod pre fun t ht => (hc.sizes t (by rw [heq]; exact List.mem_append_left _ ht)).2
  omega

theorem liveBlock_bytes (hc : Cut g (s.heap.ready g) L) (hu : u ∈ usedAt (heapBase g) L) :
    (liveBlock u).bytes = ⟨u.1.start + 8, u.2.toNat⟩ := by
  have hbounds := used_bounds hc hu
  have hends := heap_ends g
  unfold liveBlock LiveBlock.bytes
  rw [BitVec.toNat_ofNat, Nat.mod_eq_of_lt (by omega)]

theorem liveBlock_extent (hc : Cut g (s.heap.ready g) L) (hne : s.heap.pxEnd ≠ 0)
    (hu : u ∈ usedAt (heapBase g) L) : (liveBlock u).extent s.heap = u.1 := by
  have hbounds := used_bounds hc hu
  have hends := heap_ends g
  have hnode := hc.used u hu
  rw [ready_of_ne hne] at hnode
  have hlink : adr (u.1.start + 8) - xHeapStructSize = adr u.1.start := by
    rw [show xHeapStructSize = adr 8 from rfl, adr_sub (by omega), Nat.add_sub_cancel]
  have hlen : (adr u.1.len).toNat = u.1.len := by
    rw [BitVec.toNat_ofNat, Nat.mod_eq_of_lt (by omega)]
  unfold liveBlock LiveBlock.extent
  simp only [hlink, hnode]
  rw [or_allocated_clear _ (by omega), hlen, BitVec.toNat_ofNat, Nat.mod_eq_of_lt (by omega),
    Nat.add_sub_cancel]

/-- A request for which there is room. -/
theorem Inv.malloc_fit (hi : Inv g s L) (hn : 0 < n.toNat) (hfit : FirstFit (allocSize n) L pre k post) :
    (s.heap.pvPortMalloc g n).1 = adr (heapBase g + Segs.total pre + 8) ∧
      adr (heapBase g + Segs.total pre + 8) ≠ 0 ∧
      Inv g (s.next g (.malloc n))
        (pre ++ .used (handed (allocSize n) k) n :: leftOver (allocSize n) k post) ∧
      Counts (s.heap.ready g) (s.next g (.malloc n)).heap 1 0 ∧
      (s.next g (.malloc n)).live.length = s.live.length + 1 := by
  obtain ⟨hpv, hcut, hcounts⟩ := hi.cut.malloc hn hfit
  rw [← pvPortMalloc_ready] at hpv hcut hcounts
  have hends := heap_ends g
  have htotal := hi.cut.total
  rw [hfit.eq, total_append, total_cons, Seg.len_free] at htotal
  have hne : adr (heapBase g + Segs.total pre + 8) ≠ 0 := by
    rw [show (0 : U32) = adr 0 from rfl, Ne, adr_inj (by omega) (by omega)]
    omega
  have hnext : s.next g (.malloc n) = { heap := (s.heap.pvPortMalloc g n).2
                                        live := liveBlock (⟨heapBase g + Segs.total pre,
                                          handed (allocSize n) k⟩, n) :: s.live } := by
    unfold next liveBlock
    simp only [hpv, ne_eq, hne, not_false_eq_true, if_true]
  rw [hnext]
  refine ⟨hpv, hne, ⟨hcut.ready, ?_, fun h0 => (hcut.pxEnd_ne h0).elim⟩, hcounts, List.length_cons⟩
  have hold := hi.live
  have hrest : usedAt (heapBase g + Segs.total pre + handed (allocSize n) k)
      (leftOver (allocSize n) k post) = usedAt (heapBase g + Segs.total pre + k) post := by
    unfold handed leftOver
    split_ifs with hsplit
    · show usedAt (_ + (k - allocSize n)) post = _
      rw [show heapBase g + Segs.total pre + allocSize n + (k - allocSize n) =
        heapBase g + Segs.total pre + k by omega]
    · rfl
  rw [hfit.eq, usedAt_append, usedAt, List.map_append] at hold
  rw [usedAt_append, usedAt, hrest, List.map_append, List.map_cons]
  exact List.perm_middle.trans (hold.cons _)

/-- A request for which there is none. -/
theorem Inv.malloc_none (hi : Inv g s L) (hno : n = 0 ∨ ∀ k, .free k ∈ L → k < allocSize n) :
    (s.heap.pvPortMalloc g n).1 = 0 ∧
      s.next g (.malloc n) = { heap := s.heap.ready g, live := s.live } ∧
      Inv g (s.next g (.malloc n)) L := by
  have hcall := hi.cut.malloc_none hno
  rw [← pvPortMalloc_ready] at hcall
  have hnext : s.next g (.malloc n) = { heap := s.heap.ready g, live := s.live } := by
    unfold next
    simp [hcall]
  refine ⟨by rw [hcall], hnext, ?_⟩
  rw [hnext]
  exact ⟨hi.cut.ready, hi.live, fun h0 => (hi.cut.pxEnd_ne h0).elim⟩

theorem malloc_cases (n : U32) (L : List (Seg U32)) :
    (0 < n.toNat ∧ ∃ pre k post, FirstFit (allocSize n) L pre k post) ∨
      (n = 0 ∨ ∀ k, .free k ∈ L → k < allocSize n) := by
  by_cases hno : n = 0 ∨ ∀ k, .free k ∈ L → k < allocSize n
  · exact Or.inr hno
  · rw [not_or] at hno
    obtain ⟨hn, hsome⟩ := hno
    simp only [not_forall, not_lt] at hsome
    obtain ⟨m, hmem, hm⟩ := hsome
    exact Or.inl ⟨Nat.pos_of_ne_zero fun h0 => hn (BitVec.eq_of_toNat_eq h0), exists_firstFit hmem hm⟩

theorem Inv.pv_ne_zero (hi : Inv g s L) (hb : b ∈ s.live) : b.pv ≠ 0 := by
  obtain ⟨u, hu, rfl⟩ := List.mem_map.mp (hi.live.mem_iff.mpr hb)
  have hbounds := used_bounds hi.cut hu
  have hends := heap_ends g
  unfold liveBlock
  rw [show (0 : U32) = adr 0 from rfl, Ne, adr_inj (by omega) (by omega)]
  omega

/-- Freeing nothing does nothing. -/
theorem Inv.free_zero (hi : Inv g s L) : s.next g (.free 0) = s := by
  have hall : s.live.filter (fun b => b.pv ≠ 0) = s.live :=
    List.filter_eq_self.mpr fun b hb => decide_eq_true (hi.pv_ne_zero hb)
  show HeapTasks.mk s.heap (s.live.filter fun b => b.pv ≠ 0) = s
  rw [hall]

/-- The other blocks in use lie elsewhere. -/
theorem filter_live (hc : Cut g (s.heap.ready g) (pre ++ .used k n :: post)) :
    ((usedAt (heapBase g) (pre ++ .used k n :: post)).map liveBlock).filter
        (fun b => b.pv ≠ adr (heapBase g + Segs.total pre + 8)) =
      (usedAt (heapBase g) pre ++ usedAt (heapBase g + Segs.total pre + k) post).map liveBlock := by
  have hends := heap_ends g
  have hk := hc.pos (.used k n) (by simp)
  rw [Seg.len_used] at hk
  have hstart : ∀ u ∈ usedAt (heapBase g) (pre ++ .used k n :: post),
      (liveBlock u).pv = adr (heapBase g + Segs.total pre + 8) → u.1.start = heapBase g + Segs.total pre := by
    intro u hu heq
    have hbounds := used_bounds hc hu
    have htotal := hc.total
    rw [total_append, total_cons, Seg.len_used] at htotal
    have := (adr_inj (by omega) (by omega)).mp heq
    omega
  have hkeep : ∀ u, u ∈ usedAt (heapBase g) pre ∨ u ∈ usedAt (heapBase g + Segs.total pre + k) post →
      (liveBlock u).pv ≠ adr (heapBase g + Segs.total pre + 8) := by
    intro u hu heq
    have hmem : u ∈ usedAt (heapBase g) (pre ++ .used k n :: post) := by
      rw [usedAt_append]
      exact List.mem_append.mpr (hu.imp id fun hu => List.mem_cons_of_mem _ hu)
    have hs := hstart u hmem heq
    have hbounds := used_bounds hc hmem
    rcases hu with hu | hu
    · have := usedAt_start_le hu
      omega
    · have := usedAt_start_le hu
      omega
  rw [usedAt_append, usedAt, List.map_append, List.map_cons, List.filter_append,
    List.filter_cons_of_neg (by simp [liveBlock]), ← List.filter_append, ← List.map_append]
  refine List.filter_eq_self.mpr fun b hb => decide_eq_true ?_
  obtain ⟨u, hu, rfl⟩ := List.mem_map.mp hb
  exact hkeep u (List.mem_append.mp hu)

theorem Inv.initialised (hi : Inv g s L) (hb : b ∈ s.live) : s.heap.pxEnd ≠ 0 := by
  intro h0
  rw [hi.fresh h0] at hb
  cases hb

/-- Where a block that a task holds lies. -/
theorem Inv.find (hi : Inv g s L) (hb : b ∈ s.live) :
    ∃ pre k post, L = pre ++ .used k b.xWantedSize :: post ∧
      b.pv = adr (heapBase g + Segs.total pre + 8) := by
  obtain ⟨u, hu, rfl⟩ := List.mem_map.mp (hi.live.mem_iff.mpr hb)
  obtain ⟨pre, post, heq, hstart⟩ := usedAt_mem hu
  refine ⟨pre, u.1.len, post, heq, ?_⟩
  rw [← hstart]
  rfl

theorem Inv.free (hi : Inv g s (pre ++ .used k n :: post)) :
    Inv g (s.next g (.free (adr (heapBase g + Segs.total pre + 8)))) (coalesce (pre ++ .free k :: post)) ∧
      Counts s.heap (s.next g (.free (adr (heapBase g + Segs.total pre + 8)))).heap 0 1 ∧
      (s.next g (.free (adr (heapBase g + Segs.total pre + 8)))).live.length + 1 = s.live.length := by
  have hmem : liveBlock (⟨heapBase g + Segs.total pre, k⟩, n) ∈ s.live := by
    refine hi.live.mem_iff.mp (List.mem_map_of_mem ?_)
    rw [usedAt_append]
    simp [usedAt]
  have hcut := hi.cut
  rw [ready_of_ne (hi.initialised hmem)] at hcut
  obtain ⟨hfree, hcounts⟩ := hcut.free (b := heapBase g + Segs.total pre) rfl
  have hperm := hi.live.filter fun b => b.pv ≠ adr (heapBase g + Segs.total pre + 8)
  rw [filter_live hi.cut] at hperm
  refine ⟨⟨hfree.ready, ?_, fun h0 => (hfree.pxEnd_ne h0).elim⟩, hcounts, ?_⟩
  · rw [coalesce_usedAt, usedAt_append]
    exact hperm
  · have hlen := hi.live.length_eq
    have hlen' := hperm.length_eq
    rw [usedAt_append] at hlen
    simp only [List.length_map, List.length_append, usedAt, List.length_cons] at hlen hlen'
    show (s.live.filter _).length + 1 = _
    omega

/-- What the tasks write leaves the headers alone. -/
theorem Inv.write (hi : Inv g s L) (hready : s.Ready (.write mem)) :
    Inv g (s.next g (.write mem)) L ∧ (s.heap.pxEnd = 0 → s.next g (.write mem) = s) := by
  by_cases hne : s.heap.pxEnd = 0
  · have hsame : mem = s.heap.mem := by
      funext p
      refine hready p fun b hb => ?_
      rw [hi.fresh hne] at hb
      cases hb
    have hnext : s.next g (.write mem) = s := by
      rw [hsame]
      rfl
    rw [hnext]
    exact ⟨hi, fun _ => rfl⟩
  · refine ⟨?_, fun h0 => (hne h0).elim⟩
    have hcut := hi.cut
    rw [ready_of_ne hne] at hcut
    have hends := heap_ends g
    have hsame : ∀ d < 2 ^ 32, (∀ u ∈ usedAt (heapBase g) L,
        d + 8 ≤ u.1.start + 8 ∨ u.1.start + u.1.len ≤ d) → mem (adr d) = s.heap.mem (adr d) := by
      intro d hd hout
      refine hready (adr d) fun b hb => ?_
      obtain ⟨u, hu, rfl⟩ := List.mem_map.mp (hi.live.mem_iff.mpr hb)
      rw [liveBlock_bytes hi.cut hu]
      have hbounds := used_bounds hi.cut hu
      have hcase := hout u hu
      unfold Block.Apart
      rw [BitVec.toNat_ofNat, Nat.mod_eq_of_lt hd]
      simp only
      omega
    have hcut' : Cut g { s.heap with mem := mem } L := by
      refine hcut.of_mem (hsame _ g.xStart.isLt fun u hu => ?_) fun pre post heq => ?_
      · have hout := xStart_outside g
        have hbounds := used_bounds hi.cut hu
        omega
      · have htotal := hcut.total
        rw [heq, total_append] at htotal
        refine hsame _ (by omega) fun u hu => ?_
        rw [heq, usedAt_append] at hu
        rcases List.mem_append.mp hu with hu | hu
        · exact Or.inr (usedAt_start_le hu).2
        · have := usedAt_start_le hu
          exact Or.inl (by omega)
    exact ⟨hcut'.ready, hi.live, fun h0 => (hne h0).elim⟩

theorem Inv.step (hi : Inv g s L) (hstep : Step g s e s') : ∃ L', Inv g s' L' := by
  obtain ⟨hready, rfl⟩ := hstep
  cases e with
  | malloc n =>
    rcases malloc_cases n L with ⟨hn, pre, k, post, hfit⟩ | hno
    · exact ⟨_, (hi.malloc_fit hn hfit).2.2.1⟩
    · exact ⟨L, (hi.malloc_none hno).2.2⟩
  | free pv =>
    rcases hready with rfl | ⟨b, hb, rfl⟩
    · rw [hi.free_zero]
      exact ⟨L, hi⟩
    · obtain ⟨pre, k, post, rfl, hpv⟩ := hi.find hb
      rw [hpv]
      exact ⟨_, hi.free.1⟩
  | write mem => exact ⟨L, (hi.write hready).1⟩

theorem run_inv (hrun : Run (Step g) (start mem) evs s) : ∃ L, Inv g s L := by
  induction hrun with
  | nil => exact ⟨_, start_inv g mem⟩
  | snoc _ hstep ih =>
    obtain ⟨L, hi⟩ := ih
    exact hi.step hstep

end HeapTasks

end Stm32F407
