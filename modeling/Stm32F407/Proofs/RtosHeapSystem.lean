import Stm32F407.Proofs.RtosHeapRuns

/-! What the tasks can rely on, however they call the kernel's heap: the memory they hold
lies apart, a request is turned down only when no gap is long enough, the figures add up,
and of the past only the blocks in use matter. -/

namespace Stm32F407

open Lib Segs

namespace HeapTasks

open PortHeap

variable {g : HeapPlace} {s s' s₁ : HeapTasks} {L pre post : List (Seg U32)} {e : HeapCall}
  {evs evs' calls : List HeapCall} {mem mem' : U32 → BlockLink} {b : LiveBlock} {n : U32} {k : ℕ}

theorem Inv.extents (hi : Inv g s L) (hne : s.heap.pxEnd ≠ 0) (hb : b ∈ s.live) :
    ∃ u ∈ usedAt (heapBase g) L, b = liveBlock u ∧ b.extent s.heap = u.1 := by
  obtain ⟨u, hu, rfl⟩ := List.mem_map.mp (hi.live.mem_iff.mpr hb)
  exact ⟨u, hu, rfl, liveBlock_extent hi.cut hne hu⟩

/-- An array on an address that is not aligned. -/
def ramPlace : HeapPlace where
  ucHeap := 0x20001004
  xStart := 0x20000000
  pos := by decide
  inside := by decide
  outside := Or.inl (by decide)

def after (calls : List HeapCall) : HeapTasks := calls.foldl (next ramPlace) (start fun _ => ⟨0, 0⟩)

def twoGiven : List HeapCall := [.malloc 100, .malloc 20]

theorem twoGiven_run : Run (Step ramPlace) (start fun _ => ⟨0, 0⟩) twoGiven (after twoGiven) := by
  have hadm : Admitted (next ramPlace) Ready (start fun _ => ⟨0, 0⟩) twoGiven :=
    ⟨trivial, trivial, trivial⟩
  exact Run.of_admitted (fun _ _ h => ⟨h, rfl⟩) hadm

/-- The blocks of the tasks are disjoint, headers included, lie inside the array on
aligned addresses, and are as long as asked for. -/
theorem live_apart (hrun : Run (Step g) (start mem) evs s) :
    s.live.Pairwise (fun b c => (b.extent s.heap).Apart (c.extent s.heap)) ∧
      ∀ b ∈ s.live, heapBase g ≤ (b.extent s.heap).start ∧
        (b.extent s.heap).start + (b.extent s.heap).len ≤ heapEnd g ∧
        b.pv.toNat = (b.extent s.heap).start + 8 ∧ b.pv.toNat % 8 = 0 ∧
        b.xWantedSize.toNat + 8 < (b.extent s.heap).len := by
  obtain ⟨L, hi⟩ := run_inv hrun
  have hends := heap_ends g
  constructor
  · refine (hi.live.pairwise_iff fun h => Block.Apart.symm h).mp (List.pairwise_map.mpr ?_)
    refine (usedAt_apart (heapBase g) L).imp_of_mem fun {u v} hu hv hle => Or.inl ?_
    have hne := hi.initialised (hi.live.mem_iff.mp (List.mem_map_of_mem hu))
    rw [liveBlock_extent hi.cut hne hu, liveBlock_extent hi.cut hne hv]
    exact hle
  · intro b hb
    obtain ⟨u, hu, rfl, hext⟩ := hi.extents (hi.initialised hb) hb
    have hbounds := used_bounds hi.cut hu
    have hpv : (liveBlock u).pv.toNat = u.1.start + 8 := by
      unfold liveBlock
      rw [BitVec.toNat_ofNat, Nat.mod_eq_of_lt (by omega)]
    rw [hext, hpv]
    exact ⟨hbounds.1, hbounds.2.1, rfl, by omega, hbounds.2.2.2.2⟩

theorem live_apart_two : (after twoGiven).live = [⟨0x20001080, 20⟩, ⟨0x20001010, 100⟩] ∧
    (after twoGiven).live.Pairwise
      fun b c => (b.extent (after twoGiven).heap).Apart (c.extent (after twoGiven).heap) :=
  ⟨by decide +kernel, (live_apart twoGiven_run).1⟩

/-- A request is turned down exactly when it is for nothing, or when no gap between the
blocks of the tasks is long enough for it. -/
theorem malloc_null_iff (hrun : Run (Step g) (start mem) evs s) (n : U32) :
    (s.heap.pvPortMalloc g n).1 = 0 ↔
      n = 0 ∨ ∀ a, heapBase g ≤ a → a + allocSize n ≤ heapEnd g →
        ∃ b ∈ s.live, ¬ (⟨a, allocSize n⟩ : Block).Apart (b.extent s.heap) := by
  obtain ⟨L, hi⟩ := run_inv hrun
  have hgap := exists_gap_iff hi.cut.separated hi.cut.pos
    (show 0 < allocSize n by have := (allocSize_spec n).1; omega) (heapBase g)
  rw [hi.cut.total] at hgap
  have hapart : ∀ a, (∀ u ∈ usedAt (heapBase g) L, (⟨a, allocSize n⟩ : Block).Apart u.1) ↔
      ∀ b ∈ s.live, (⟨a, allocSize n⟩ : Block).Apart (b.extent s.heap) := by
    intro a
    constructor
    · intro h b hb
      obtain ⟨u, hu, -, hext⟩ := hi.extents (hi.initialised hb) hb
      rw [hext]
      exact h u hu
    · intro h u hu
      have hb := hi.live.mem_iff.mp (List.mem_map_of_mem hu)
      have hext := liveBlock_extent hi.cut (hi.initialised hb) hu
      rw [← hext]
      exact h _ hb
  rcases malloc_cases n L with ⟨hn, pre, k, post, hfit⟩ | hno
  · obtain ⟨hpv, hne, -⟩ := hi.malloc_fit hn hfit
    obtain ⟨a, hle, hend, hfree⟩ := hgap.mp ⟨k, by rw [hfit.eq]; simp, hfit.fits⟩
    refine iff_of_false (by rw [hpv]; exact hne) ?_
    rintro (rfl | hall)
    · exact absurd hn (by simp)
    · obtain ⟨b, hb, hnot⟩ := hall a hle hend
      exact hnot ((hapart a).mp hfree b hb)
  · refine iff_of_true (hi.malloc_none hno).1 (hno.imp id fun hno a hle hend => ?_)
    by_contra hall
    push Not at hall
    obtain ⟨m, hmem, hm⟩ := hgap.mpr ⟨a, hle, hend, (hapart a).mpr hall⟩
    exact absurd (hno m hmem) (by omega)

/-- The array has less than 26616 bytes. -/
theorem malloc_null_iff_two : ((after twoGiven).heap.pvPortMalloc ramPlace 26600).1 = 0 := by
  have hends : heapEnd ramPlace = heapBase ramPlace + 26608 := by decide
  have hsize : allocSize 26600 = 26616 := by decide
  exact (malloc_null_iff twoGiven_run 26600).mpr (Or.inr fun a hle hend => by omega)

theorem usedAt_strict (hc : Cut g (s.heap.ready g) L) :
    (usedAt (heapBase g) L).Pairwise fun u v => u.1.start < v.1.start :=
  (usedAt_apart (heapBase g) L).imp_of_mem fun hu _ hle => by
    have := used_bounds hc hu
    omega

theorem Inv.mem_other {M : List (Seg U32)} (hi : Inv g s L) (hi' : Inv g s' M)
    (hlive : s.live.Perm s'.live) (hext : ∀ b ∈ s.live, b.extent s.heap = b.extent s'.heap)
    {u : Block × U32} (hu : u ∈ usedAt (heapBase g) L) : u ∈ usedAt (heapBase g) M := by
  have hb := hi.live.mem_iff.mp (List.mem_map_of_mem hu)
  have hb' := hlive.mem_iff.mp hb
  obtain ⟨v, hv, heq, hext'⟩ := hi'.extents (hi'.initialised hb') hb'
  have hsame := hext _ hb
  rw [hext', liveBlock_extent hi.cut (hi.initialised hb) hu] at hsame
  have htag : u.2 = v.2 := congrArg LiveBlock.xWantedSize heq
  rwa [Prod.ext hsame htag]

/-- Two heaps with the same blocks in use are cut in the same way. -/
theorem Inv.eq_cut {M : List (Seg U32)} (hi : Inv g s L) (hi' : Inv g s' M)
    (hlive : s.live.Perm s'.live) (hext : ∀ b ∈ s.live, b.extent s.heap = b.extent s'.heap) : L = M := by
  have hstrict := usedAt_strict hi.cut
  have hstrict' := usedAt_strict hi'.cut
  have hnodup : ∀ {l : List (Block × U32)}, l.Pairwise (fun u v => u.1.start < v.1.start) → l.Nodup :=
    fun h => h.imp fun hlt heq => by
      rw [heq] at hlt
      exact lt_irrefl _ hlt
  have hext' : ∀ b ∈ s'.live, b.extent s'.heap = b.extent s.heap := fun b hb =>
    (hext b (hlive.mem_iff.mpr hb)).symm
  have hperm : (usedAt (heapBase g) L).Perm (usedAt (heapBase g) M) :=
    (List.perm_ext_iff_of_nodup (hnodup hstrict) (hnodup hstrict')).mpr fun u =>
      ⟨hi.mem_other hi' hlive hext, hi'.mem_other hi hlive.symm hext'⟩
  have hused := hperm.eq_of_pairwise
    (fun u v _ _ hlt hlt' => (lt_asymm hlt hlt').elim) hstrict hstrict'
  have htotal := hi.cut.total
  have htotal' := hi'.cut.total
  exact eq_of_usedAt hi.cut.separated hi'.cut.separated hi.cut.pos hi'.cut.pos (by omega) hused

theorem Inv.answers_eq (hi : Inv g s L) (hi' : Inv g s' L) (hcalls : ∀ mem, HeapCall.write mem ∉ calls)
    (hadm : Admitted (next g) Ready s calls) : answers g s calls = answers g s' calls := by
  induction calls generalizing s s' L with
  | nil => rfl
  | cons e calls ih =>
    obtain ⟨hready, hrest⟩ := hadm
    have hcalls' : ∀ mem, HeapCall.write mem ∉ calls := fun mem hmem =>
      hcalls mem (List.mem_cons_of_mem _ hmem)
    cases e with
    | malloc n =>
      rcases malloc_cases n L with ⟨hn, pre, k, post, hfit⟩ | hno
      · obtain ⟨hpv, -, hinv, -⟩ := hi.malloc_fit hn hfit
        obtain ⟨hpv', -, hinv', -⟩ := hi'.malloc_fit hn hfit
        rw [answers, answers, hpv, hpv', ih hinv hinv' hcalls' hrest]
      · obtain ⟨hpv, -, hinv⟩ := hi.malloc_none hno
        obtain ⟨hpv', -, hinv'⟩ := hi'.malloc_none hno
        rw [answers, answers, hpv, hpv', ih hinv hinv' hcalls' hrest]
    | free pv =>
      show answers g (s.next g (.free pv)) calls = answers g (s'.next g (.free pv)) calls
      rcases hready with rfl | ⟨b, hb, rfl⟩
      · rw [hi.free_zero] at hrest
        rw [hi.free_zero, hi'.free_zero]
        exact ih hi hi' hcalls' hrest
      · obtain ⟨pre, k, post, rfl, hpv⟩ := hi.find hb
        rw [hpv] at hrest ⊢
        exact ih hi.free.1 hi'.free.1 hcalls' hrest
    | write mem => exact (hcalls mem (by simp)).elim

/-- The order of the calls before does not matter: with the same blocks in use, the heap
answers all further calls in the same way. -/
theorem heap_forgets (hrun : Run (Step g) (start mem) evs s) (hrun' : Run (Step g) (start mem') evs' s')
    (hlive : s.live.Perm s'.live) (hext : ∀ b ∈ s.live, b.extent s.heap = b.extent s'.heap)
    (hcalls : ∀ mem, HeapCall.write mem ∉ calls) (hadm : Admitted (next g) Ready s calls) :
    answers g s calls = answers g s' calls := by
  obtain ⟨L, hi⟩ := run_inv hrun
  obtain ⟨M, hi'⟩ := run_inv hrun'
  obtain rfl := hi.eq_cut hi' hlive hext
  exact hi.answers_eq hi' hcalls hadm

/-- The first block freed at once, or used again in between. -/
def freedOnce : List HeapCall := twoGiven ++ [.free 0x20001010]

def freedTwice : List HeapCall := twoGiven ++ [.free 0x20001010, .malloc 50, .free 0x20001010]

theorem freedOnce_run : Run (Step ramPlace) (start fun _ => ⟨0, 0⟩) freedOnce (after freedOnce) := by
  have hmem : (⟨0x20001010, 100⟩ : LiveBlock) ∈ (after twoGiven).live := by decide +kernel
  exact twoGiven_run.snoc ⟨Or.inr ⟨_, hmem, rfl⟩, rfl⟩

theorem freedOnce_state : (after freedOnce).live = [⟨0x20001080, 20⟩] ∧
    (after freedOnce).heap.pxEnd ≠ 0 ∧
    ((after freedOnce).live.map fun b => (b.extent (after freedOnce).heap).len).sum = 32 ∧
    ((after freedOnce).heap.vPortGetHeapStats ramPlace).xSizeOfLargestFreeBlockInBytes = 26464 := by
  decide +kernel

theorem freedTwice_run : Run (Step ramPlace) (start fun _ => ⟨0, 0⟩) freedTwice (after freedTwice) := by
  have hmem : (⟨0x20001010, 50⟩ : LiveBlock) ∈ (after (freedOnce ++ [.malloc 50])).live := by
    decide +kernel
  have hagain : Run (Step ramPlace) _ (freedOnce ++ [.malloc 50]) (after (freedOnce ++ [.malloc 50])) :=
    freedOnce_run.snoc ⟨trivial, rfl⟩
  exact hagain.snoc ⟨Or.inr ⟨_, hmem, rfl⟩, rfl⟩

theorem heap_forgets_freed :
    answers ramPlace (after freedOnce) [.malloc 200] = answers ramPlace (after freedTwice) [.malloc 200] := by
  have hsame : (after freedOnce).live.Perm (after freedTwice).live ∧ ∀ b ∈ (after freedOnce).live,
      b.extent (after freedOnce).heap = b.extent (after freedTwice).heap := by decide +kernel
  exact heap_forgets freedOnce_run freedTwice_run hsame.1 hsame.2 (by simp) ⟨trivial, trivial⟩

/-- The minimum follows the free bytes; the first request sets it. -/
theorem Inv.step_minimum (hi : Inv g s L) (hstep : Step g s e s') (hne : s'.heap.pxEnd ≠ 0) :
    s'.heap.xMinimumEverFreeBytesRemaining =
      if s.heap.pxEnd = 0 ∨ s'.heap.xFreeBytesRemaining < s.heap.xMinimumEverFreeBytesRemaining then
        s'.heap.xFreeBytesRemaining
      else s.heap.xMinimumEverFreeBytesRemaining := by
  have hkept : s.heap.pxEnd ≠ 0 → ∀ h' : PortHeap, h'.xFreeBytesRemaining = s.heap.xFreeBytesRemaining →
      h'.xMinimumEverFreeBytesRemaining = s.heap.xMinimumEverFreeBytesRemaining →
      h'.xMinimumEverFreeBytesRemaining = if s.heap.pxEnd = 0 ∨
          h'.xFreeBytesRemaining < s.heap.xMinimumEverFreeBytesRemaining then h'.xFreeBytesRemaining
        else s.heap.xMinimumEverFreeBytesRemaining := by
    intro h0 h' hfree hmin
    have hleast := hi.cut.least
    rw [ready_of_ne h0] at hleast
    rw [hmin, hfree, if_neg]
    rintro (hz | hlt)
    · exact h0 hz
    · exact BitVec.not_lt.mpr hleast hlt
  obtain ⟨hready, rfl⟩ := hstep
  cases e with
  | malloc n =>
    rcases malloc_cases n L with ⟨hn, pre, k, post, hfit⟩ | hno
    · obtain ⟨-, -, hinv, hcounts, -⟩ := hi.malloc_fit hn hfit
      rw [hcounts.minimum]
      by_cases h0 : s.heap.pxEnd = 0
      · rw [if_pos (Or.inl h0)]
        have hcut := hinv.cut
        rw [ready_of_ne hne] at hcut
        have hready' : (s.heap.ready g).xMinimumEverFreeBytesRemaining = adr (heapEnd g - heapBase g) := by
          unfold ready
          rw [if_pos h0, prvHeapInit_eq]
        have hends := heap_ends g
        have hle := hcut.freeTotal_le
        have hsum := freeTotal_add_used (heapBase g)
          (pre ++ .used (handed (allocSize n) k) n :: leftOver (allocSize n) k post)
        have htotal := hcut.total
        rw [hready']
        split_ifs with hlt
        · rfl
        · rw [hcut.remaining, adr_lt (by omega) (by omega)] at hlt
          rw [hcut.remaining]
          congr 1
          omega
      · rw [ready_of_ne h0]
        simp only [h0, false_or]
    · obtain ⟨-, hnext, hinv⟩ := hi.malloc_none hno
      rw [hnext]
      by_cases h0 : s.heap.pxEnd = 0
      · rw [if_pos (Or.inl h0)]
        unfold ready
        rw [if_pos h0, prvHeapInit_eq]
      · refine hkept h0 _ ?_ ?_ <;> simp only [ready_of_ne h0]
  | free pv =>
    rcases hready with rfl | ⟨b, hb, rfl⟩
    · rw [hi.free_zero] at hne ⊢
      exact hkept hne _ rfl rfl
    · have h0 := hi.initialised hb
      obtain ⟨pre, k, post, rfl, hpv⟩ := hi.find hb
      rw [hpv, hi.free.2.1.minimum]
      simp only [h0, false_or]
  | write mem => exact hkept hne _ rfl rfl

theorem Inv.step_counts (hi : Inv g s L) (hstep : Step g s e s')
    (hcounts : s.heap.xNumberOfSuccessfulAllocations =
      s.heap.xNumberOfSuccessfulFrees + adr s.live.length) :
    s'.heap.xNumberOfSuccessfulAllocations = s'.heap.xNumberOfSuccessfulFrees + adr s'.live.length := by
  have hready : (s.heap.ready g).xNumberOfSuccessfulAllocations = s.heap.xNumberOfSuccessfulAllocations ∧
      (s.heap.ready g).xNumberOfSuccessfulFrees = s.heap.xNumberOfSuccessfulFrees := by
    unfold ready
    split_ifs
    · rw [prvHeapInit_eq]
      exact ⟨rfl, rfl⟩
    · exact ⟨rfl, rfl⟩
  obtain ⟨henabled, rfl⟩ := hstep
  cases e with
  | malloc n =>
    rcases malloc_cases n L with ⟨hn, pre, k, post, hfit⟩ | hno
    · obtain ⟨-, -, -, hstep, hlen⟩ := hi.malloc_fit hn hfit
      rw [hstep.allocations, hstep.frees, hlen, hready.1, hready.2, hcounts, ← adr_add]
      exact (by simp [BitVec.add_assoc])
    · rw [(hi.malloc_none hno).2.1]
      exact (hready.1.trans hcounts).trans (by rw [hready.2])
  | free pv =>
    rcases henabled with rfl | ⟨b, hb, rfl⟩
    · rwa [hi.free_zero]
    · obtain ⟨pre, k, post, rfl, hpv⟩ := hi.find hb
      rw [hpv]
      obtain ⟨-, hstep, hlen⟩ := hi.free
      rw [hstep.allocations, hstep.frees, hcounts, ← hlen, ← adr_add]
      simp [BitVec.add_assoc, BitVec.add_comm]
  | write mem => exact hcounts

theorem Inv.step_initialised (hi : Inv g s L) (hstep : Step g s e s') (hne : s.heap.pxEnd ≠ 0) :
    s'.heap.pxEnd ≠ 0 := by
  obtain ⟨hready, rfl⟩ := hstep
  cases e with
  | malloc n =>
    rcases malloc_cases n L with ⟨hn, pre, k, post, hfit⟩ | hno
    · obtain ⟨-, -, -, hcounts, -⟩ := hi.malloc_fit hn hfit
      rw [hcounts.pxEnd, ready_of_ne hne]
      exact hne
    · rw [(hi.malloc_none hno).2.1, ready_of_ne hne]
      exact hne
  | free pv =>
    rcases hready with rfl | ⟨b, hb, rfl⟩
    · rwa [hi.free_zero]
    · obtain ⟨pre, k, post, rfl, hpv⟩ := hi.find hb
      rw [hpv, hi.free.2.1.pxEnd]
      exact hne
  | write mem => exact hne

/-- `low` is the least of the free bytes in the states of the run `evs` after the first
request. -/
structure Lowest (g : HeapPlace) (mem : U32 → BlockLink) (evs : List HeapCall) (low : U32) : Prop where
  le : ∀ evs' s, evs' <+: evs → Run (Step g) (start mem) evs' s → s.heap.pxEnd ≠ 0 →
    low ≤ s.heap.xFreeBytesRemaining
  attained : ∃ evs' s, evs' <+: evs ∧ Run (Step g) (start mem) evs' s ∧ s.heap.pxEnd ≠ 0 ∧
    low = s.heap.xFreeBytesRemaining

theorem run_eq (h : Run (Step g) (start mem) evs s) (h' : Run (Step g) (start mem) evs s') : s = s' := by
  rw [h.eq_foldl fun _ _ _ hs => hs.2, h'.eq_foldl fun _ _ _ hs => hs.2]

theorem run_lowest (hrun : Run (Step g) (start mem) evs s) :
    (s.heap.pxEnd = 0 → ∀ evs' s', evs' <+: evs → Run (Step g) (start mem) evs' s' →
        s'.heap.pxEnd = 0) ∧
      (s.heap.pxEnd ≠ 0 → Lowest g mem evs s.heap.xMinimumEverFreeBytesRemaining) := by
  induction hrun with
  | nil =>
    refine ⟨fun _ evs' s' hpre h' => ?_, fun hne => (hne rfl).elim⟩
    rw [List.prefix_nil.mp hpre] at h'
    rw [run_nil_iff.mp h']
    rfl
  | @snoc evs s s' e hrun hstep ih =>
    obtain ⟨L, hi⟩ := run_inv hrun
    have hnew : Run (Step g) (start mem) (evs ++ [e]) s' := hrun.snoc hstep
    have hcases : ∀ {evs₁ s₁}, evs₁ <+: evs ++ [e] → Run (Step g) (start mem) evs₁ s₁ →
        s₁ = s' ∨ evs₁ <+: evs := by
      intro evs₁ s₁ hpre h₁
      rcases List.prefix_concat_iff.mp hpre with rfl | hpre
      · exact Or.inl (run_eq h₁ hnew)
      · exact Or.inr hpre
    refine ⟨fun h0 evs₁ s₁ hpre h₁ => ?_, fun hne => ?_⟩
    · rcases hcases hpre h₁ with rfl | hpre
      · exact h0
      · refine ih.1 ?_ evs₁ s₁ hpre h₁
        by_contra hne
        exact hi.step_initialised hstep hne h0
    · have hmin := hi.step_minimum hstep hne
      have hself : ∃ evs' t, evs' <+: evs ++ [e] ∧ Run (Step g) (start mem) evs' t ∧ t.heap.pxEnd ≠ 0 ∧
          s'.heap.xFreeBytesRemaining = t.heap.xFreeBytesRemaining :=
        ⟨_, s', List.prefix_refl _, hnew, hne, rfl⟩
      by_cases h0 : s.heap.pxEnd = 0
      · rw [if_pos (Or.inl h0)] at hmin
        rw [hmin]
        refine ⟨fun evs₁ s₁ hpre h₁ hne₁ => ?_, hself⟩
        rcases hcases hpre h₁ with rfl | hpre
        · exact BitVec.le_refl _
        · exact (hne₁ (ih.1 h0 evs₁ s₁ hpre h₁)).elim
      · obtain ⟨hle, evs₂, s₂, hpre₂, hrun₂, hne₂, hlow⟩ := ih.2 h0
        simp only [h0, false_or] at hmin
        split_ifs at hmin with hlt
        · rw [hmin]
          refine ⟨fun evs₁ s₁ hpre h₁ hne₁ => ?_, hself⟩
          rcases hcases hpre h₁ with rfl | hpre
          · exact BitVec.le_refl _
          · exact BitVec.le_trans (BitVec.le_of_lt hlt) (hle evs₁ s₁ hpre h₁ hne₁)
        · rw [hmin]
          refine ⟨fun evs₁ s₁ hpre h₁ hne₁ => ?_, evs₂, s₂,
            hpre₂.trans (List.prefix_append _ _), hrun₂, hne₂, hlow⟩
          rcases hcases hpre h₁ with rfl | hpre
          · exact BitVec.not_lt.mp hlt
          · exact hle evs₁ s₁ hpre h₁ hne₁

theorem run_counts (hrun : Run (Step g) (start mem) evs s) :
    s.heap.xNumberOfSuccessfulAllocations = s.heap.xNumberOfSuccessfulFrees + adr s.live.length := by
  induction hrun with
  | nil => rfl
  | snoc hrun hstep ih =>
    obtain ⟨L, hi⟩ := run_inv hrun
    exact hi.step_counts hstep ih

/-- What is not in use is counted as free, the minimum is the least that has been free
since the first request, and the counts of calls differ by the blocks in use. -/
theorem heap_figures (hrun : Run (Step g) (start mem) evs s) (hne : s.heap.pxEnd ≠ 0) :
    s.heap.xPortGetFreeHeapSize.toNat + (s.live.map fun b => (b.extent s.heap).len).sum =
        heapEnd g - heapBase g ∧
      Lowest g mem evs s.heap.xPortGetMinimumEverFreeHeapSize ∧
      s.heap.xNumberOfSuccessfulAllocations =
        s.heap.xNumberOfSuccessfulFrees + BitVec.ofNat 32 s.live.length := by
  obtain ⟨L, hi⟩ := run_inv hrun
  have hcut := hi.cut
  rw [ready_of_ne hne] at hcut
  refine ⟨?_, (run_lowest hrun).2 hne, run_counts hrun⟩
  have hends := heap_ends g
  have htotal := hcut.total
  have hle := hcut.freeTotal_le
  have hsum := freeTotal_add_used (heapBase g) L
  have hlens : (s.live.map fun b => (b.extent s.heap).len).sum =
      ((usedAt (heapBase g) L).map fun u => u.1.len).sum := by
    rw [← (hi.live.map fun b => (b.extent s.heap).len).sum_eq, List.map_map]
    congr 1
    refine List.map_congr_left fun u hu => ?_
    show ((liveBlock u).extent s.heap).len = u.1.len
    rw [liveBlock_extent hi.cut hne hu]
  have hfree : s.heap.xFreeBytesRemaining.toNat = freeTotal L := by
    rw [hcut.remaining, BitVec.toNat_ofNat, Nat.mod_eq_of_lt (by omega)]
  rw [hlens, show s.heap.xPortGetFreeHeapSize = s.heap.xFreeBytesRemaining from rfl, hfree]
  omega

theorem heap_figures_freed :
    (after freedOnce).heap.xPortGetFreeHeapSize.toNat + 32 = 26608 ∧
      Lowest ramPlace (fun _ => ⟨0, 0⟩) freedOnce (after freedOnce).heap.xPortGetMinimumEverFreeHeapSize := by
  have hfigures := heap_figures freedOnce_run freedOnce_state.2.1
  have hsize : heapEnd ramPlace - heapBase ramPlace = 26608 := by decide
  rw [freedOnce_state.2.2.1, hsize] at hfigures
  exact ⟨hfigures.1, hfigures.2.1⟩

end HeapTasks

end Stm32F407
