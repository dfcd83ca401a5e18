import Stm32F407.Proofs.RtosHeapCut

/-! `pvPortMalloc` takes the first free block that is long enough, gives back what is left
of it, and turns a request down when there is none. -/

namespace Stm32F407

open Lib Segs

variable {g : HeapPlace} {n p : U32}

namespace PortHeap

variable {h h' : PortHeap} {L pre post : List (Seg U32)} {u : Block × U32} {a b c e k w x : ℕ}

/-- The header of a block in use is no part of the chain. -/
theorem chain_mark {m m' : U32 → BlockLink} (hc : Chain m a (pre ++ .used k n :: post) e)
    (hm : ∀ c, c ≠ adr (a + total pre) → m' c = m c) (hpos : ∀ s ∈ pre ++ .used k n :: post, 0 < s.len)
    (hend : a + total (pre ++ .used k n :: post) < 2 ^ 32) :
    Chain m' a (pre ++ .used k n :: post) e := by
  have hk := hpos (.used k n) (by simp)
  rw [total_append, total_cons, Seg.len_used] at hend
  rw [Seg.len_used] at hk
  have hne : ∀ c, c < 2 ^ 32 → c ≠ a + total pre → m' (adr c) = m (adr c) := by
    intro c hc hne
    exact hm _ (by rw [Ne, adr_inj hc (by omega)]; exact hne)
  rw [chain_append] at hc ⊢
  have hpost : Chain m (a + total pre + k) post e := hc.2
  have hpost' : Chain m' (a + total pre + k) post e :=
    hpost.congr (fun c hle hlt => hne c (by omega) (by omega)) fun s hs =>
      hpos s (List.mem_append_right _ (List.mem_cons_of_mem _ hs))
  exact ⟨hc.1.congr (fun c _ hlt => hne c (by omega) (by omega)) fun s hs =>
    hpos s (List.mem_append_left _ hs), hpost'⟩

/-- What has been handed out is in use, and the rest is as it was. -/
theorem Cut.handOut (hc : Cut g h (pre ++ .free k :: post)) {rest : List (Seg U32)}
    (hn : 0 < n.toNat) (hw : allocSize n ≤ w) (hw' : w ≤ allocSize n + 16 ∧ w % 8 = 0)
    (hrest : rest = post ∧ w = k ∨ rest = .free (k - w) :: post ∧ w + 16 < k)
    (hchain : Chain h'.mem (heapBase g) (pre ++ .used w n :: rest) (heapEnd g))
    (hhead : h'.mem (adr g.xStart.toNat) =
      ⟨adr (nextFree (heapBase g) (pre ++ .used w n :: rest) (heapEnd g)), 0⟩)
    (hmark : h'.mem (adr (heapBase g + Segs.total pre)) = ⟨0, adr w ||| heapBLOCK_ALLOCATED_BITMASK⟩)
    (hsame : ∀ c < 2 ^ 32, c ≠ lastFree g.xStart.toNat (heapBase g) pre →
      c ≠ heapBase g + Segs.total pre → (c = heapBase g + Segs.total pre + w → w = k) →
      h'.mem (adr c) = h.mem (adr c))
    (hpxEnd : h'.pxEnd = h.pxEnd) (hremaining : h'.xFreeBytesRemaining = h.xFreeBytesRemaining - adr w)
    (hleast : h'.xMinimumEverFreeBytesRemaining ≤ h'.xFreeBytesRemaining) :
    Cut g h' (pre ++ .used w n :: rest) := by
  obtain ⟨hbase, hlow, hhigh, hlast, hbmod, hemod⟩ := heap_ends g
  have hout := xStart_outside g
  have htotal := hc.total
  have hsize := hc.sizes (.free k) (by simp)
  have hspec := allocSize_spec n
  rw [total_append, total_cons, Seg.len_free] at htotal
  rw [Seg.len_free] at hsize
  have hpos : ∀ s ∈ pre, 0 < s.len := fun s hs => hc.pos s (List.mem_append_left _ hs)
  have hwk : w ≤ k := by rcases hrest with ⟨-, h⟩ | ⟨-, h⟩ <;> omega
  have hrange := lastFree_range (x := g.xStart.toNat) (a := heapBase g) hpos
  have hused : usedAt (heapBase g + Segs.total pre + w) rest =
      usedAt (heapBase g + Segs.total pre + k) post := by
    rcases hrest with ⟨rfl, rfl⟩ | ⟨rfl, hlt⟩
    · rfl
    · show usedAt (heapBase g + Segs.total pre + w + (k - w)) post = _
      rw [show heapBase g + Segs.total pre + w + (k - w) = heapBase g + Segs.total pre + k by omega]
  have hold : ∀ u, u ∈ usedAt (heapBase g) pre ∨ u ∈ usedAt (heapBase g + Segs.total pre + k) post →
      u ∈ usedAt (heapBase g) (pre ++ .free k :: post) := by
    intro u hu
    rw [usedAt_append]
    exact List.mem_append.mpr hu
  have hnew : ∀ u ∈ usedAt (heapBase g) (pre ++ .used w n :: rest),
      u = (⟨heapBase g + Segs.total pre, w⟩, n) ∨ u ∈ usedAt (heapBase g) pre ∨
        u ∈ usedAt (heapBase g + Segs.total pre + k) post := by
    intro u hu
    rw [usedAt_append, List.mem_append] at hu
    rcases hu with hu | hu
    · exact Or.inr (Or.inl hu)
    · rw [usedAt, hused] at hu
      exact (List.mem_cons.mp hu).imp id Or.inr
  refine ⟨hpxEnd.trans hc.pxEnd, hhead, hchain, fun u hu => ?_, ?_, ?_, ?_, fun s hs => ?_,
    fun u hu => ?_, ?_, hleast⟩
  · rcases hnew u hu with rfl | hu | hu
    · exact hmark
    · have hle := usedAt_start_le hu
      have hne := lastFree_ne_used (x := g.xStart.toNat) hpos (by omega) hu
      have hlen : 0 < u.1.len := by
        obtain ⟨p₁, p₂, heq, -⟩ := usedAt_mem hu
        exact hpos (.used u.1.len u.2) (by rw [heq]; simp)
      rw [hsame u.1.start (by omega) hne (by omega) (by omega)]
      exact hc.used u (hold u (Or.inl hu))
    · have hle := usedAt_start_le hu
      rw [hsame u.1.start (by omega) (by omega) (by omega) (by omega)]
      exact hc.used u (hold u (Or.inr hu))
  · rw [hsame (heapEnd g) (by omega) (by omega) (by omega) (by omega)]
    exact hc.last
  · rcases hrest with ⟨rfl, rfl⟩ | ⟨rfl, hlt⟩ <;>
      simp only [total_append, total_cons, Seg.len_used, Seg.len_free] <;> omega
  · have hsep := separated_append_free hc.separated
    rw [separated_append_used]
    rcases hrest with ⟨rfl, rfl⟩ | ⟨rfl, hlt⟩
    · exact ⟨hsep.1, hsep.2.2.2⟩
    · exact ⟨hsep.1, hsep.2.2.1, hsep.2.2.2⟩
  · rcases List.mem_append.mp hs with hs | hs
    · exact hc.sizes s (List.mem_append_left _ hs)
    · rcases List.mem_cons.mp hs with rfl | hs
      · rw [Seg.len_used]
        omega
      · rcases hrest with ⟨rfl, rfl⟩ | ⟨rfl, hlt⟩
        · exact hc.sizes s (List.mem_append_right _ (List.mem_cons_of_mem _ hs))
        · rcases List.mem_cons.mp hs with rfl | hs
          · rw [Seg.len_free]
            omega
          · exact hc.sizes s (List.mem_append_right _ (List.mem_cons_of_mem _ hs))
  · rcases hnew u hu with rfl | hu | hu
    · exact ⟨hn, hw, hw'.1⟩
    · exact hc.wanted u (hold u (Or.inl hu))
    · exact hc.wanted u (hold u (Or.inr hu))
  · rw [hremaining, hc.remaining, freeTotal_append, freeTotal_append]
    have hfree : freeTotal (.used w n :: rest) = freeTotal (.free k :: post) - w := by
      rcases hrest with ⟨rfl, rfl⟩ | ⟨rfl, hlt⟩ <;> simp only [freeTotal] <;> omega
    have hge : w ≤ freeTotal (.free k :: post) := by
      simp only [freeTotal]
      omega
    rw [hfree, adr_sub (by omega), Nat.add_sub_assoc hge]

/-- How much of the `k` bytes of a block goes to a request for `w`, and what is left. -/
def handed (w k : ℕ) : ℕ := if w + 16 < k then w else k

def leftOver (w k : ℕ) (post : List (Seg U32)) : List (Seg U32) :=
  if w + 16 < k then .free (k - w) :: post else post

theorem leftOver_pos (h : ∀ s ∈ post, 0 < s.len) : ∀ s ∈ leftOver w k post, 0 < s.len := by
  intro s hs
  unfold leftOver at hs
  split_ifs at hs with hsplit
  · rcases List.mem_cons.mp hs with rfl | hs
    · rw [Seg.len_free]
      omega
    · exact h s hs
  · exact h s hs

/-- The block at `b` taken out of the free list. -/
theorem Cut.unlink (hc : Cut g h (pre ++ .free k :: post)) (hb : b = heapBase g + Segs.total pre)
    (hy : c = lastFree g.xStart.toNat (heapBase g) pre)
    (he : e = nextFree (b + k) post (heapEnd g)) :
    Chain (h.setNext (adr c) (adr e)).mem (heapBase g) pre e ∧
      (h.setNext (adr c) (adr e)).mem (adr g.xStart.toNat) = ⟨adr (nextFree (heapBase g) pre e), 0⟩ ∧
      (h.setNext (adr c) (adr e)).mem (adr b) = ⟨adr e, adr k⟩ ∧
      Chain (h.setNext (adr c) (adr e)).mem (b + k) post (heapEnd g) ∧
      (c = g.xStart.toNat ∨ heapBase g ≤ c ∧ c < b) := by
  have hends := heap_ends g
  have hout := xStart_outside g
  have htotal := hc.total
  have hk := hc.pos (.free k) (by simp)
  rw [total_append, total_cons, Seg.len_free] at htotal
  rw [Seg.len_free] at hk
  have hpos : ∀ s ∈ pre, 0 < s.len := fun s hs => hc.pos s (List.mem_append_left _ hs)
  have hrange := lastFree_range (x := g.xStart.toNat) (a := heapBase g) hpos
  rw [← hy] at hrange
  have hxlt := g.xStart.isLt
  have hchain := hc.chain
  rw [chain_append, ← hb] at hchain
  have hnode : h.mem (adr b) = ⟨adr e, adr k⟩ := by
    rw [he]
    exact hchain.2.1
  have hbefore : Chain h.mem (heapBase g) pre b := hchain.1
  have hhead := hc.head
  rw [nextFree_append, ← hb, nextFree_free] at hhead
  have hsame : ∀ d < 2 ^ 32, d ≠ c → (h.setNext (adr c) (adr e)).mem (adr d) = h.mem (adr d) := by
    intro d hd hne
    exact setNext_of_ne h _ (by rw [Ne, adr_inj hd (by omega)]; exact hne)
  have hset : (h.setNext (adr c) (adr e)).mem (adr (lastFree g.xStart.toNat (heapBase g) pre)) =
      ⟨adr e, (h.mem (adr (lastFree g.xStart.toNat (heapBase g) pre))).xBlockSize⟩ := by
    rw [← hy, setNext_self]
  have hrelink := hbefore.relink (by rw [hhead]) hpos (by omega) hxlt (by omega) hset
    fun d hd hne => hsame d (by omega) (by omega)
  have hsize : ((h.setNext (adr c) (adr e)).mem (adr g.xStart.toNat)).xBlockSize = 0 := by
    by_cases hx : g.xStart.toNat = c
    · rw [hx, setNext_self, ← hx, hhead]
    · rw [hsame _ hxlt hx, hhead]
  refine ⟨hrelink.1, ?_, by rw [hsame b (by omega) (by omega), hnode], ?_, by omega⟩
  · rw [← hrelink.2, ← hsize]
  · have hafter : Chain h.mem (b + k) post (heapEnd g) := hchain.2.2
    exact hafter.congr (fun d hle hlt => hsame d (by omega) (by omega)) fun s hs =>
      hc.pos s (List.mem_append_right _ (List.mem_cons_of_mem _ hs))

/-- The block that has been taken out keeps what was wanted, and the rest of it is free. -/
theorem Cut.split (hc : Cut g h (pre ++ .free k :: post)) (hb : b = heapBase g + Segs.total pre)
    (hy : c = lastFree g.xStart.toNat (heapBase g) pre)
    (he : e = nextFree (b + k) post (heapEnd g)) (hw : w ≤ k) (hpos : 0 < w)
    (h₂ : PortHeap) (heq : h₂ = (h.setNext (adr c) (adr e)).splitBlock g (adr w) (adr b)) (n : U32) :
    Chain h₂.mem (heapBase g) (pre ++ .used (handed w k) n :: leftOver w k post) (heapEnd g) ∧
      h₂.mem (adr g.xStart.toNat) =
        ⟨adr (nextFree (heapBase g) (pre ++ .used (handed w k) n :: leftOver w k post) (heapEnd g)), 0⟩ ∧
      (h₂.mem (adr b)).xBlockSize = adr (handed w k) ∧
      Touches (fun p => p = adr c ∨ p = adr b ∨ p = adr (b + w) ∧ w + 16 < k) h h₂ := by
  obtain ⟨hbefore, hhead, hnode, hafter, hrange⟩ := hc.unlink hb hy he
  set h₁ := h.setNext (adr c) (adr e) with hh₁
  have ht₁ : Touches (· = adr c) h h₁ := setNext_touches h _ _
  have hends := heap_ends g
  have hout := xStart_outside g
  have htotal := hc.total
  have hsizes := hc.sizes (.free k) (by simp)
  rw [total_append, total_cons, Seg.len_free] at htotal
  rw [Seg.len_free] at hsizes
  have hle := hc.total_le
  rw [total_append, total_cons, Seg.len_free] at hle
  have hxlt := g.xStart.isLt
  have hposPre : ∀ s ∈ pre, 0 < s.len := fun s hs => hc.pos s (List.mem_append_left _ hs)
  have hposPost : ∀ s ∈ post, 0 < s.len := fun s hs =>
    hc.pos s (List.mem_append_right _ (List.mem_cons_of_mem _ hs))
  have hcond : heapMINIMUM_BLOCK_SIZE < (h₁.mem (adr b)).xBlockSize - adr w ↔ w + 16 < k := by
    rw [hnode, adr_sub hw, show heapMINIMUM_BLOCK_SIZE = adr 16 from rfl, adr_lt (by omega) (by omega)]
    omega
  unfold splitBlock at heq
  by_cases hsplit : w + 16 < k
  · rw [if_pos (hcond.mpr hsplit)] at heq
    simp only [hnode, adr_sub hw, adr_add] at heq
    set h₃ := (h₁.setSize (adr (b + w)) (adr (k - w))).setSize (adr b) (adr w) with hh₃
    have ht₃ : Touches (fun p => p = adr (b + w) ∨ p = adr b) h₁ h₃ :=
      (setSize_touches h₁ _ _).trans (setSize_touches _ _ _)
    have hsame : ∀ d < 2 ^ 32, d ≠ b → d ≠ b + w → h₃.mem (adr d) = h₁.mem (adr d) := by
      intro d hd hdb hdw
      refine ht₃.mem _ ?_
      rw [adr_inj hd (by omega), adr_inj hd (by omega)]
      omega
    have hbw : adr (b + w) ≠ adr b := by
      rw [Ne, adr_inj (by omega) (by omega)]
      omega
    have hskip : b + w + (k - w) = b + k := by omega
    have hloose : Loose g h₃ g.xStart.toNat (heapBase g) (pre ++ [.used w n]) (b + w) (k - w) post
        (heapEnd g) := by
      refine ⟨?_, ?_, ?_, ?_, ?_, (adr_toNat _).symm, ?_, ?_, by omega, ?_, hposPost, ?_, ?_, by omega,
        ⟨hxlt, by omega⟩, ?_⟩
      · rw [hsame _ hxlt (by omega) (by omega), hhead, hskip, ← he, nextFree_append, nextFree_used,
          nextFree_nil]
      · rw [hskip, ← he, chain_append]
        refine ⟨hbefore.congr (fun d hdle hdlt => hsame d (by omega) (by omega) (by omega)) hposPre, trivial⟩
      · rw [setSize_of_ne _ _ hbw, setSize_self]
      · rw [hskip]
        exact hafter.congr (fun d hdle hdlt => hsame d (by omega) (by omega) (by omega)) hposPost
      · rw [ht₃.pxEnd, ht₁.pxEnd, hc.pxEnd]
      · rw [total_append, total_cons, total_nil, Seg.len_used]
        omega
      · omega
      · intro s hs
        rcases List.mem_append.mp hs with hs | hs
        · exact hposPre s hs
        · rw [List.mem_singleton.mp hs]
          exact hpos
      · exact (separated_append_used pre [] w n).mpr ⟨(separated_append_free hc.separated).1, trivial⟩
      · exact (separated_append_free hc.separated).2.2.2
      · have hcount := hc.count
        simp only [List.length_append, List.length_cons, List.length_nil] at hcount ⊢
        omega
    have hlist : coalesce ((pre ++ [.used w n]) ++ .free (k - w) :: post) =
        pre ++ .used (handed w k) n :: leftOver w k post := by
      rw [handed, leftOver, if_pos hsplit, if_pos hsplit, List.append_assoc, List.singleton_append]
      refine coalesce_of_separated ?_
      rw [separated_append_used]
      exact ⟨(separated_append_free hc.separated).1, (separated_append_free hc.separated).2.2⟩
    have hlast : lastFree g.xStart.toNat (heapBase g) (pre ++ [.used w n]) = c := by
      rw [lastFree_append, lastFree_used, lastFree_nil, hy]
    obtain ⟨hchain, hhead', ht⟩ := hloose.insert
    rw [← heq, hlist] at hchain hhead'
    rw [← heq, hlast] at ht
    refine ⟨hchain, hhead', ?_, ?_⟩
    · rw [ht.mem _ ?_, setSize_self, handed, if_pos hsplit]
      rw [adr_inj (by omega) (by omega), adr_inj (by omega) (by omega)]
      omega
    · refine ((ht₁.trans ht₃).trans ht).mono fun p hp => ?_
      rcases hp with (hp | hp | hp) | hp | hp
      · exact Or.inl hp
      · exact Or.inr (Or.inr ⟨hp, hsplit⟩)
      · exact Or.inr (Or.inl hp)
      · exact Or.inl hp
      · exact Or.inr (Or.inr ⟨hp, hsplit⟩)
  · rw [if_neg (fun hlt => hsplit (hcond.mp hlt))] at heq
    rw [heq, handed, leftOver, if_neg hsplit, if_neg hsplit]
    refine ⟨?_, ?_, by rw [hnode], ht₁.mono fun p hp => Or.inl hp⟩
    · rw [chain_append, ← hb, nextFree_used, ← he]
      exact ⟨hbefore, hafter⟩
    · rw [hhead, nextFree_append, ← hb, nextFree_used, ← he]

theorem allocateBlock_eq (h : PortHeap) (p : U32) : h.allocateBlock p =
    { mem := Function.update h.mem p ⟨0, (h.mem p).xBlockSize ||| heapBLOCK_ALLOCATED_BITMASK⟩
      pxEnd := h.pxEnd
      xFreeBytesRemaining := h.xFreeBytesRemaining - (h.mem p).xBlockSize
      xMinimumEverFreeBytesRemaining :=
        if h.xFreeBytesRemaining - (h.mem p).xBlockSize < h.xMinimumEverFreeBytesRemaining then
          h.xFreeBytesRemaining - (h.mem p).xBlockSize
        else h.xMinimumEverFreeBytesRemaining
      xNumberOfSuccessfulAllocations := h.xNumberOfSuccessfulAllocations + 1
      xNumberOfSuccessfulFrees := h.xNumberOfSuccessfulFrees } := by
  unfold allocateBlock
  split_ifs with hlt <;> simp [setNext, setSize, hlt]

structure Counts (h h' : PortHeap) (allocations frees : U32) : Prop where
  pxEnd : h'.pxEnd = h.pxEnd
  minimum : h'.xMinimumEverFreeBytesRemaining =
    if h'.xFreeBytesRemaining < h.xMinimumEverFreeBytesRemaining then h'.xFreeBytesRemaining
    else h.xMinimumEverFreeBytesRemaining
  allocations : h'.xNumberOfSuccessfulAllocations = h.xNumberOfSuccessfulAllocations + allocations
  frees : h'.xNumberOfSuccessfulFrees = h.xNumberOfSuccessfulFrees + frees

theorem Cut.takeBlock (hc : Cut g h (pre ++ .free k :: post)) (hn : 0 < n.toNat) (hw : allocSize n ≤ k)
    (hb : b = heapBase g + Segs.total pre) (hy : c = lastFree g.xStart.toNat (heapBase g) pre) :
    (h.takeBlock g (adr (allocSize n)) (adr c) (adr b)).1 = adr (b + 8) ∧
      Cut g (h.takeBlock g (adr (allocSize n)) (adr c) (adr b)).2
        (pre ++ .used (handed (allocSize n) k) n :: leftOver (allocSize n) k post) ∧
      Counts h (h.takeBlock g (adr (allocSize n)) (adr c) (adr b)).2 1 0 := by
  obtain ⟨hlow, hwmod, hnw⟩ := allocSize_spec n
  have hends := heap_ends g
  have hout := xStart_outside g
  have htotal := hc.total
  have hsizes := hc.sizes (.free k) (by simp)
  rw [total_append, total_cons, Seg.len_free] at htotal
  rw [Seg.len_free] at hsizes
  have hxlt := g.xStart.isLt
  have hposPre : ∀ s ∈ pre, 0 < s.len := fun s hs => hc.pos s (List.mem_append_left _ hs)
  have hrange := (hc.unlink hb hy rfl).2.2.2.2
  have hnext := lastFree_next hc.chain (by rw [hc.head])
  rw [← hy, ← hb, nextFree_free] at hnext
  have hlink : (h.mem (adr b)).pxNextFreeBlock = adr (nextFree (b + k) post (heapEnd g)) := by
    have hchain := hc.chain
    rw [chain_append, ← hb] at hchain
    rw [hchain.2.1]
  have hhanded : handed (allocSize n) k ≤ k ∧ allocSize n ≤ handed (allocSize n) k ∧
      handed (allocSize n) k ≤ allocSize n + 16 ∧ handed (allocSize n) k % 8 = 0 := by
    unfold handed
    split_ifs <;> omega
  have htake : h.takeBlock g (adr (allocSize n)) (adr c) (adr b) =
      (adr b + xHeapStructSize, ((h.setNext (adr c) (adr (nextFree (b + k) post (heapEnd g)))).splitBlock g
        (adr (allocSize n)) (adr b)).allocateBlock (adr b)) := by
    rw [← hlink, ← hnext]
    rfl
  obtain ⟨hchain, hhead, hsize, ht⟩ := hc.split hb hy rfl hw (by omega) _ rfl n
  set h₂ := (h.setNext (adr c) (adr (nextFree (b + k) post (heapEnd g)))).splitBlock g
    (adr (allocSize n)) (adr b) with hh₂
  rw [htake, allocateBlock_eq, hsize]
  have hend : heapBase g + Segs.total (pre ++ .used (handed (allocSize n) k) n ::
      leftOver (allocSize n) k post) = heapEnd g := by
    rw [total_append, total_cons, Seg.len_used]
    unfold leftOver handed
    split_ifs with hsplit
    · rw [total_cons, Seg.len_free]
      omega
    · omega
  have hbx : adr g.xStart.toNat ≠ adr b := by
    rw [Ne, adr_inj hxlt (by omega)]
    omega
  refine ⟨by rw [show xHeapStructSize = adr 8 from rfl, adr_add], ?_, ?_⟩
  · refine hc.handOut hn hhanded.2.1 hhanded.2.2 ?_ ?_ ?_ ?_ ?_ ?_ ?_ ?_
    · unfold leftOver handed
      split_ifs with hsplit
      · exact Or.inr ⟨rfl, hsplit⟩
      · exact Or.inl ⟨rfl, rfl⟩
    · refine chain_mark hchain (fun p hp => Function.update_of_ne (by rwa [hb]) _ _) ?_ (by omega)
      intro s hs
      rcases List.mem_append.mp hs with hs | hs
      · exact hposPre s hs
      · rcases List.mem_cons.mp hs with rfl | hs
        · rw [Seg.len_used]
          omega
        · exact leftOver_pos (fun s hs =>
            hc.pos s (List.mem_append_right _ (List.mem_cons_of_mem _ hs))) s hs
    · exact (Function.update_of_ne hbx _ _).trans hhead
    · rw [← hb]
      show Function.update _ _ _ _ = _
      rw [Function.update_self]
    · intro d hd hdy hdb hdw
      rw [← hb] at hdb hdw
      rw [← hy] at hdy
      have hne : adr d ≠ adr b := by
        rw [Ne, adr_inj hd (by omega)]
        exact hdb
      refine (Function.update_of_ne hne _ _).trans (ht.mem _ ?_)
      rw [adr_inj hd (by omega), adr_inj hd (by omega), adr_inj hd (by omega)]
      unfold handed at hdw
      split_ifs at hdw <;> omega
    · exact ht.pxEnd
    · show h₂.xFreeBytesRemaining - _ = _
      rw [ht.remaining]
    · show (if _ then _ else _) ≤ _
      split_ifs with hlt
      · exact BitVec.le_refl _
      · exact BitVec.not_lt.mp hlt
  · have hremaining := ht.remaining
    have hminimum := ht.minimum
    refine ⟨ht.pxEnd, ?_, ?_, ?_⟩
    · show (if _ then _ else _) = _
      rw [hminimum]
    · show h₂.xNumberOfSuccessfulAllocations + 1 = _
      rw [ht.allocations]
    · show h₂.xNumberOfSuccessfulFrees = _
      rw [ht.frees]
      exact (BitVec.add_zero _).symm

theorem Cut.pxEnd_ne (hc : Cut g h L) : h.pxEnd ≠ 0 := by
  have hends := heap_ends g
  rw [hc.pxEnd, show (0 : U32) = adr 0 from rfl, Ne, adr_inj (by omega) (by omega)]
  omega

theorem sizeIsValid_iff (hw : w < 2 ^ 32) : heapBLOCK_SIZE_IS_VALID (adr w) = true ↔ w < 2 ^ 31 := by
  unfold heapBLOCK_SIZE_IS_VALID
  rw [decide_eq_true_iff, and_allocated_eq_zero_iff, BitVec.toNat_ofNat, Nat.mod_eq_of_lt hw]

theorem le_freeTotal (hmem : Seg.free k ∈ L) : k ≤ freeTotal L := by
  obtain ⟨pre, post, rfl⟩ := List.append_of_mem hmem
  rw [freeTotal_append]
  simp only [freeTotal]
  omega

/-- The search ends at the first block that is long enough. -/
theorem Cut.findBlock (hc : Cut g h L) (hfit : FirstFit w L pre k post) :
    h.findBlock (adr w) g.xStart (h.mem g.xStart).pxNextFreeBlock heapRounds =
      (adr (lastFree g.xStart.toNat (heapBase g) pre), adr (heapBase g + Segs.total pre)) := by
  have hends := heap_ends g
  have htotal := hc.total
  have hcount := hc.count
  have hle := le_freeTotal (k := k) (L := L) (by rw [hfit.eq]; simp)
  have hfree := hc.freeTotal_le
  have hfits := hfit.fits
  rw [hfit.eq] at hcount
  simp only [List.length_append, List.length_cons] at hcount
  have hall : Chain h.mem (heapBase g) (pre ++ .free k :: post) (heapEnd g) := by
    rw [← hfit.eq]
    exact hc.chain
  obtain ⟨skipped, hskip, hfind⟩ := findBlock_append (x := g.xStart.toNat) (w := w) hall hfit.first
    (by rw [← hfit.eq]; exact hc.pos) (by omega) (by rw [← hfit.eq]; omega) (by omega) (by omega)
  obtain ⟨rounds, hrounds⟩ : ∃ rounds, heapRounds = rounds + 1 + skipped :=
    ⟨heapRounds - 1 - skipped, by omega⟩
  have hchain := hc.chain
  rw [hfit.eq, chain_append] at hchain
  have hstop : ¬ ((h.mem (adr (heapBase g + Segs.total pre))).xBlockSize < adr w ∧
      (h.mem (adr (heapBase g + Segs.total pre))).pxNextFreeBlock ≠ 0) := by
    rw [hchain.2.1]
    rintro ⟨hlt, -⟩
    have := (adr_lt (by omega) (by omega)).mp hlt
    omega
  have hhead : (h.mem g.xStart).pxNextFreeBlock = adr (nextFree (heapBase g) L (heapEnd g)) := by
    have hx := hc.head
    rw [adr_toNat] at hx
    rw [hx]
  rw [hhead, hfit.eq, hrounds, ← adr_toNat g.xStart, hfind, nextFree_free, PortHeap.findBlock,
    if_neg hstop]
  simp

/-- The search ends at the end marker if no block is long enough. -/
theorem Cut.findBlock_none (hc : Cut g h L) (hno : ∀ k, .free k ∈ L → k < w) (hw : w < 2 ^ 32) :
    (h.findBlock (adr w) g.xStart (h.mem g.xStart).pxNextFreeBlock heapRounds).2 = h.pxEnd := by
  have hends := heap_ends g
  have htotal := hc.total
  have hcount := hc.count
  have hall : Chain h.mem (heapBase g) (L ++ []) (heapEnd g) := by
    rw [List.append_nil]
    exact hc.chain
  obtain ⟨skipped, hskip, hfind⟩ := findBlock_append (x := g.xStart.toNat) (w := w) hall hno
    (by rw [List.append_nil]; exact hc.pos) (by omega) (by rw [List.append_nil]; omega) (by omega) hw
  obtain ⟨rounds, hrounds⟩ : ∃ rounds, heapRounds = rounds + 1 + skipped :=
    ⟨heapRounds - 1 - skipped, by omega⟩
  have hstop : ¬ ((h.mem (adr (heapEnd g))).xBlockSize < adr w ∧
      (h.mem (adr (heapEnd g))).pxNextFreeBlock ≠ 0) := by
    rw [hc.last]
    exact fun hcond => hcond.2 rfl
  have hhead : (h.mem g.xStart).pxNextFreeBlock = adr (nextFree (heapBase g) (L ++ []) (heapEnd g)) := by
    have hx := hc.head
    rw [adr_toNat] at hx
    rw [hx, List.append_nil]
  rw [hhead, hrounds, ← adr_toNat g.xStart, hfind, nextFree_nil, PortHeap.findBlock, if_neg hstop,
    hc.pxEnd]

/-- A request is met with the first block that is long enough. -/
theorem Cut.malloc (hc : Cut g h L) (hn : 0 < n.toNat) (hfit : FirstFit (allocSize n) L pre k post) :
    (h.pvPortMalloc g n).1 = adr (heapBase g + Segs.total pre + 8) ∧
      Cut g (h.pvPortMalloc g n).2
        (pre ++ .used (handed (allocSize n) k) n :: leftOver (allocSize n) k post) ∧
      Counts h (h.pvPortMalloc g n).2 1 0 := by
  have hends := heap_ends g
  obtain ⟨hlow, hwmod, hnw⟩ := allocSize_spec n
  have hle := le_freeTotal (k := k) (L := L) (by rw [hfit.eq]; simp)
  have hfree := hc.freeTotal_le
  have hfits := hfit.fits
  have htotal := hc.total
  have hwanted : wantedBlockSize n = adr (allocSize n) := by
    rw [wantedBlockSize_eq hn, if_pos (by omega)]
  have hcond : heapBLOCK_SIZE_IS_VALID (adr (allocSize n)) = true ∧ 0 < adr (allocSize n) ∧
      adr (allocSize n) ≤ h.xFreeBytesRemaining := by
    refine ⟨(sizeIsValid_iff (by omega)).mpr (by omega), ?_, ?_⟩
    · rw [show (0 : U32) = adr 0 from rfl, adr_lt (by omega) (by omega)]
      omega
    · rw [hc.remaining, BitVec.le_def, BitVec.toNat_ofNat, BitVec.toNat_ofNat]
      omega
  have hblock : adr (heapBase g + Segs.total pre) ≠ h.pxEnd := by
    have hk := hc.pos (.free k) (by rw [hfit.eq]; simp)
    rw [Seg.len_free] at hk
    rw [hfit.eq, total_append, total_cons, Seg.len_free] at htotal
    rw [hc.pxEnd, Ne, adr_inj (by omega) (by omega)]
    omega
  have hcall : h.pvPortMalloc g n = h.takeBlock g (adr (allocSize n))
      (adr (lastFree g.xStart.toNat (heapBase g) pre)) (adr (heapBase g + Segs.total pre)) := by
    unfold pvPortMalloc
    simp only [if_neg hc.pxEnd_ne, hwanted, if_pos hcond, hc.findBlock hfit, if_pos hblock]
  rw [hcall]
  have hc' : Cut g h (pre ++ .free k :: post) := by
    rw [← hfit.eq]
    exact hc
  exact hc'.takeBlock hn hfits rfl rfl

/-- A request that no block is long enough for is turned down. -/
theorem Cut.malloc_none (hc : Cut g h L)
    (hno : n = 0 ∨ ∀ k, .free k ∈ L → k < allocSize n) : h.pvPortMalloc g n = (0, h) := by
  have hzero : ¬ (heapBLOCK_SIZE_IS_VALID (0 : U32) = true ∧ (0 : U32) < 0 ∧
      (0 : U32) ≤ h.xFreeBytesRemaining) := by
    rintro ⟨-, hlt, -⟩
    exact absurd hlt (by simp)
  unfold pvPortMalloc
  simp only [if_neg hc.pxEnd_ne]
  by_cases hn : n = 0
  · rw [hn, wantedBlockSize_zero, if_neg hzero]
  have hpos : 0 < n.toNat := Nat.pos_of_ne_zero fun h0 => hn (BitVec.eq_of_toNat_eq h0)
  rw [wantedBlockSize_eq hpos]
  by_cases hlt : allocSize n < 2 ^ 32
  · rw [if_pos hlt]
    have hend := hc.findBlock_none (hno.resolve_left hn) hlt
    split_ifs with hcond hfound
    · exact (hfound hend).elim
    · rfl
    · rfl
  · rw [if_neg hlt, if_neg hzero]

end PortHeap

end Stm32F407
