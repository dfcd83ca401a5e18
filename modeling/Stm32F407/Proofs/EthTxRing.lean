import Stm32F407.Spec.EthCalls
import Stm32F407.Proofs.EthRing

/-! The transmit ring under `eth_tx_packet` and the DMA, which may run between any two
writes of a call. The descriptors of the DMA are a run from its current one on; a
call fills the first descriptor behind that run and hands it over last. -/

namespace Stm32F407

open Lib

theorem EthDmaDesc.oneSegment_iff {d : EthDmaDesc} :
    d.OneSegment ↔ d.status.getLsbD 29 = true ∧ d.status.getLsbD 28 = true :=
  and_congr (and_mask_ne_zero_iff (by decide) (by decide))
    (and_mask_ne_zero_iff (by decide) (by decide))

def TxPacketPc.Current (d : EthDmaDesc) : TxPacketPc → Prop
  | .idle | .handed => True
  | .sized frameLength => ¬d.Own ∧ d.controlBufferSize.toNat = frameLength.toNat % 8192
  | .segments frameLength =>
      ¬d.Own ∧ d.controlBufferSize.toNat = frameLength.toNat % 8192 ∧ d.OneSegment

namespace TxPacketRing

def entry (s : TxPacketRing) (d : ℕ) : ℕ × ℕ := (d, (s.eth.tab d).controlBufferSize.toNat)

/-- The first descriptor behind those of the DMA: `DMATxDescToSet`, or the next one while a
call has handed over but not moved on. -/
def tail (n : ℕ) (s : TxPacketRing) : ℕ :=
  match s.pc with
  | .handed => slot n s.eth.dmaTxDescToSet 1
  | _ => s.eth.dmaTxDescToSet

theorem tail_eq {n : ℕ} {s : TxPacketRing} (h : s.pc ≠ .handed) : s.tail n = s.eth.dmaTxDescToSet := by
  unfold tail
  cases hpc : s.pc with
  | handed => exact absurd hpc h
  | idle | sized | segments => rfl

end TxPacketRing

structure TxRingInv (n : ℕ) (s : TxPacketRing) (q : List (ℕ × ℕ)) : Prop where
  linked : Linked n s.eth.tab
  ring : Ring n (fun d => (s.eth.tab d).Own) s.entry s.eth.dmaDesc q
  tail : s.tail n = slot n s.eth.dmaDesc q.length
  toSet_lt : s.eth.dmaTxDescToSet < n
  current : s.pc.Current (s.eth.tab s.eth.dmaTxDescToSet)
  segments : ∀ d < n, (s.eth.tab d).Own → (s.eth.tab d).OneSegment
  order : s.completed ++ q = s.submitted
  places : s.submitted.map Prod.fst = (List.range s.submitted.length).map (slot n 0)
  dmaAt : s.eth.dmaDesc = slot n 0 s.completed.length

variable {n : ℕ} {s : TxPacketRing} {q : List (ℕ × ℕ)}

namespace TxRingInv

theorem pos (h : TxRingInv n s q) : 0 < n := by
  have := h.ring.head_lt
  omega

/-- As many descriptors on as there have been submissions, the ring begins anew. -/
theorem slot_submitted (h : TxRingInv n s q) :
    slot n 0 s.submitted.length = slot n s.eth.dmaDesc q.length := by
  rw [← h.order, List.length_append, h.dmaAt, slot_slot]

/-- Between two calls the DMA has all descriptors or none of those from the tail on. -/
theorem idle_own_iff (h : TxRingInv n s q) (hpc : s.pc = .idle) :
    (s.eth.tab s.eth.dmaTxDescToSet).Own ↔ q.length = n := by
  have htail := h.tail
  rw [TxPacketRing.tail_eq (by simp [hpc])] at htail
  rw [htail]
  exact h.ring.tail_full_iff

/-- A write to the current descriptor that leaves it with the CPU. -/
theorem setDesc (h : TxRingInv n s q) {d : EthDmaDesc} {pc : TxPacketPc}
    (hfree : ¬(s.eth.tab s.eth.dmaTxDescToSet).Own) (hd : ¬d.Own)
    (haddr : d.buffer1Addr = (s.eth.tab s.eth.dmaTxDescToSet).buffer1Addr)
    (hnext : d.buffer2NextDescAddr = (s.eth.tab s.eth.dmaTxDescToSet).buffer2NextDescAddr)
    (hcur : pc.Current d) (hpc : s.pc ≠ .handed) (hpc' : pc ≠ .handed) :
    TxRingInv n { s with eth := s.eth.setDesc d, pc := pc } q := by
  have hother : ∀ j, (s.eth.tab j).Own → j ≠ s.eth.dmaTxDescToSet := by
    rintro j hown rfl
    exact hfree hown
  refine ⟨h.linked.update haddr hnext, ?_, ?_, h.toSet_lt, ?_, ?_, h.order, h.places, h.dmaAt⟩
  · refine h.ring.congr (fun j _ => ?_) fun j _ hown => ?_
    · simp only [EthTx.setDesc, Function.update_apply]
      split_ifs with hj
      · rw [hj]
        exact iff_of_false hd hfree
      · rfl
    · simp only [TxPacketRing.entry, EthTx.setDesc, Function.update_of_ne (hother j hown)]
  · exact (TxPacketRing.tail_eq hpc').trans ((TxPacketRing.tail_eq hpc).symm.trans h.tail)
  · simp only [EthTx.setDesc, Function.update_self]
    exact hcur
  · intro j hj hown
    simp only [EthTx.setDesc, Function.update_apply] at hown ⊢
    split_ifs at hown ⊢ with hjs
    · exact absurd hown hd
    · exact h.segments j hj hown

theorem packet (h : TxRingInv n s q) (hpc : s.pc = .idle) (frameLength : U16) :
    TxRingInv n (s.packet frameLength) q := by
  unfold TxPacketRing.packet
  split_ifs with hown
  · exact h
  · exact h.setDesc hown hown rfl rfl ⟨hown, tbs1_mod frameLength⟩ (by simp [hpc]) (by simp)

/-- The step by which the current descriptor becomes the last one of the DMA. -/
theorem setOwn (h : TxRingInv n s q) {frameLength : U16} (hpc : s.pc = .segments frameLength) :
    ∃ q', TxRingInv n s.write q' := by
  have hcur := h.current
  have htail := h.tail
  rw [hpc] at hcur
  rw [TxPacketRing.tail_eq (by simp [hpc])] at htail
  obtain ⟨hfree, hsize, hseg⟩ := hcur
  simp only [TxPacketRing.write, hpc, EthTx.setOwn, EthTx.setDesc]
  refine ⟨q ++ [(s.eth.dmaTxDescToSet, frameLength.toNat % 8192)], h.linked.update rfl rfl, ?_, ?_,
    h.toSet_lt, trivial, ?_, ?_, ?_, h.dmaAt⟩
  · refine h.ring.put_update EthDmaDesc.Own s.eth.tab htail hfree (own_or _) ?_ fun d _ hne _ => ?_
    · simp only [TxPacketRing.entry, Function.update_self, hsize]
    · simp only [TxPacketRing.entry, Function.update_of_ne hne]
  · simp only [TxPacketRing.tail]
    rw [htail, slot_slot, List.length_append, List.length_singleton]
  · intro d hd hown
    simp only [Function.update_apply] at hown ⊢
    split_ifs with hds
    · rw [EthDmaDesc.oneSegment_iff] at hseg ⊢
      simp only [BitVec.getLsbD_or, hseg, Bool.true_or, and_self]
    · rw [if_neg hds] at hown
      exact h.segments d hd hown
  · simp only
    rw [← h.order, List.append_assoc]
  · simp only [List.map_append, List.map_cons, List.map_nil, List.length_append, List.length_singleton,
      List.range_succ, h.places, h.slot_submitted, ← htail]

theorem write (h : TxRingInv n s q) : ∃ q', TxRingInv n s.write q' := by
  have hcur := h.current
  cases hpc : s.pc with
  | idle =>
    refine ⟨q, ?_⟩
    simp only [TxPacketRing.write, hpc]
    exact h
  | sized frameLength =>
    rw [hpc] at hcur
    obtain ⟨hfree, hsize⟩ := hcur
    have hseg : ∀ d : EthDmaDesc, EthDmaDesc.OneSegment
        { d with status := d.status ||| (0x20000000 ||| 0x10000000) } := by
      intro d
      rw [EthDmaDesc.oneSegment_iff]
      simp
    have hfree' : ∀ d : EthDmaDesc, ¬d.Own → ¬EthDmaDesc.Own
        { d with status := d.status ||| (0x20000000 ||| 0x10000000) } := by
      intro d hd
      rw [EthDmaDesc.own_iff] at hd ⊢
      simpa using hd
    refine ⟨q, ?_⟩
    simp only [TxPacketRing.write, hpc, EthTx.setSegments]
    exact h.setDesc hfree (hfree' _ hfree) rfl rfl ⟨hfree' _ hfree, hsize, hseg _⟩
      (by simp [hpc]) (by simp)
  | segments frameLength => exact h.setOwn hpc
  | handed =>
    have htail := h.tail
    have hnext := (h.linked _ h.toSet_lt).2
    rw [TxPacketRing.tail, hpc] at htail
    refine ⟨q, ?_⟩
    simp only [TxPacketRing.write, hpc, EthTx.toNextDesc, hnext]
    exact ⟨h.linked, h.ring, htail, slot_lt h.pos _ _, trivial, h.segments, h.order,
      h.places, h.dmaAt⟩

/-- The DMA is done with its current descriptor, or has none. -/
theorem dma (h : TxRingInv n s q) : ∃ q', TxRingInv n s.dma q' := by
  unfold TxPacketRing.dma EthTx.dmaStep
  simp only
  split_ifs with hown
  · obtain ⟨x, q', rfl⟩ := List.exists_cons_of_ne_nil (h.ring.head_full_iff.mp hown)
    have hhead := h.ring.head_lt
    have hx : x = s.entry s.eth.dmaDesc := h.ring.head_val.symm
    refine ⟨q', h.linked.update rfl rfl, ?_, ?_, h.toSet_lt, ?_, ?_, ?_, h.places, ?_⟩
    · simp only [(h.linked _ hhead).2]
      refine h.ring.take_update EthDmaDesc.Own s.eth.tab (not_not_intro (not_own_and _))
        fun d _ hne _ => ?_
      simp only [TxPacketRing.entry, Function.update_of_ne hne]
    · have htail := h.tail
      rw [List.length_cons, Nat.add_comm, ← slot_slot, ← (h.linked _ hhead).2] at htail
      exact htail
    · -- a descriptor that a call is still writing is not the DMA's current one
      simp only [Function.update_apply]
      split_ifs with hcur
      · have hno := h.current
        rw [hcur] at hno
        cases hpc : s.pc with
        | idle | handed => trivial
        | sized frameLength =>
          rw [hpc] at hno
          exact absurd hown hno.1
        | segments frameLength =>
          rw [hpc] at hno
          exact absurd hown hno.1
      · exact h.current
    · intro d hd hd'
      simp only [Function.update_apply] at hd' ⊢
      split_ifs at hd' ⊢ with hds
      · exact absurd (not_own_and _) hd'
      · exact h.segments d hd hd'
    · rw [← h.order, hx, List.append_assoc]
      rfl
    · simp only [(h.linked _ hhead).2]
      rw [h.dmaAt, slot_slot, List.length_append, List.length_singleton]
  · exact ⟨q, h.linked, h.ring, h.tail, h.toSet_lt, h.current, h.segments, h.order, h.places, h.dmaAt⟩

theorem step {s' : TxPacketRing} {e : TxPacketEvent} (h : TxRingInv n s q) (hs : TxPacketStep s e s') :
    ∃ q', TxRingInv n s' q' := by
  obtain ⟨hready, rfl⟩ := hs
  cases e with
  | packet frameLength => exact ⟨q, h.packet hready frameLength⟩
  | write => exact h.write
  | dma => exact h.dma

end TxRingInv

/-- `eth_tx_packet` is its writes one after the other. -/
theorem ethTxPacket_eq (s : EthTx) (frameLength : U16) :
    s.ethTxPacket frameLength =
      if (s.tab s.dmaTxDescToSet).Own then (ethError, s)
      else (ethSuccess, ((s.setSize frameLength).setSegments.setOwn).toNextDesc) := by
  unfold EthTx.ethTxPacket EthTx.setSize EthTx.setSegments EthTx.setOwn EthTx.toNextDesc EthTx.setDesc
  simp only [Function.update_self, Function.update_idem]

/-- A whole call is a run without steps of the DMA. -/
theorem ethTxPacket_run (hpc : s.pc = .idle) (frameLength : U16) :
    ∃ evs s', Run TxPacketStep s evs s' ∧ s'.pc = .idle ∧ s'.eth = (s.eth.ethTxPacket frameLength).2 := by
  have hcall : TxPacketStep s (.packet frameLength) (s.packet frameLength) := ⟨hpc, rfl⟩
  rw [ethTxPacket_eq]
  unfold TxPacketRing.packet at hcall
  split_ifs at hcall ⊢ with hown
  · exact ⟨_, s, Run.single hcall, hpc, rfl⟩
  · have hwrite : ∀ t : TxPacketRing, t.pc ≠ .idle → TxPacketStep t .write t.write :=
      fun t ht => ⟨ht, rfl⟩
    have hsegments := (Run.single hcall).snoc (hwrite _ (by simp))
    have hhand := hsegments.snoc (hwrite _ (by simp [TxPacketRing.write]))
    exact ⟨_, _, hhand.snoc (hwrite _ (by simp [TxPacketRing.write])), rfl, rfl⟩

structure HandedOver (n : ℕ) (s s' : EthTx) (frameLength : U16) : Prop where
  free : ¬(s.tab s.dmaTxDescToSet).Own
  own : (s'.tab s.dmaTxDescToSet).Own
  size : (s'.tab s.dmaTxDescToSet).controlBufferSize.toNat = frameLength.toNat % 8192
  segments : (s'.tab s.dmaTxDescToSet).OneSegment
  others : ∀ d, d ≠ s.dmaTxDescToSet → s'.tab d = s.tab d
  toSet : s'.dmaTxDescToSet = slot n s.dmaTxDescToSet 1

theorem handedOver_ethTxPacket {s : EthTx} (hlinked : Linked n s.tab) (hlt : s.dmaTxDescToSet < n)
    (hfree : ¬(s.tab s.dmaTxDescToSet).Own) (frameLength : U16) :
    HandedOver n s (s.ethTxPacket frameLength).2 frameLength := by
  simp only [EthTx.ethTxPacket, if_neg hfree]
  refine ⟨hfree, ?_, ?_, ?_, fun d hd => Function.update_of_ne hd _ _, (hlinked _ hlt).2⟩
  · simp only [Function.update_self]
    exact own_or _
  · simp only [Function.update_self]
    exact tbs1_mod frameLength
  · simp only [Function.update_self, EthDmaDesc.oneSegment_iff]
    simp

structure TxPacketResult (n : ℕ) (s : EthTx) (frameLength : U16) : Prop where
  error_iff : (s.ethTxPacket frameLength).1 = ethError ↔ ∀ d < n, (s.tab d).Own
  error : (s.ethTxPacket frameLength).1 = ethError → (s.ethTxPacket frameLength).2 = s
  success : (s.ethTxPacket frameLength).1 ≠ ethError →
    HandedOver n s (s.ethTxPacket frameLength).2 frameLength

theorem TxRingInv.ethTxPacket (h : TxRingInv n s q) (hpc : s.pc = .idle) (frameLength : U16) :
    TxPacketResult n s.eth frameLength := by
  have hown : (s.eth.tab s.eth.dmaTxDescToSet).Own ↔ ∀ d < n, (s.eth.tab d).Own := by
    constructor
    · intro hcur d hd
      exact (h.ring.all_full_iff.mpr ((h.idle_own_iff hpc).mp hcur)) d hd
    · intro hall
      exact hall _ h.toSet_lt
  have hne : ethSuccess ≠ ethError := by decide
  by_cases hcur : (s.eth.tab s.eth.dmaTxDescToSet).Own
  · have hres : s.eth.ethTxPacket frameLength = (ethError, s.eth) := by
      rw [ethTxPacket_eq, if_pos hcur]
    rw [hown] at hcur
    constructor <;> rw [hres]
    · exact iff_of_true rfl hcur
    · exact fun _ => rfl
    · exact fun hno => absurd rfl hno
  · have hres : (s.eth.ethTxPacket frameLength).1 = ethSuccess := by
      rw [ethTxPacket_eq, if_neg hcur]
    refine ⟨?_, ?_, fun _ => handedOver_ethTxPacket h.linked h.toSet_lt hcur frameLength⟩
    · rw [hres]
      exact iff_of_false hne fun hall => hcur (hown.mpr hall)
    · rw [hres]
      exact fun heq => absurd heq hne

end Stm32F407
