import Stm32F407.Proofs.EthRing

/-! Reception: every good frame is handled once and in order, its payload goes to
`netif->input` unless `pbuf_alloc` gave NULL, and its descriptor goes back to the DMA
after the copy. -/

namespace Stm32F407

open Lib

/-- The payloads, without the CRC, of the frames that got a chain. -/
def survivors (frames : List (List U8)) (allocs : List Bool) : List (List U8) :=
  (frames.zip allocs).filterMap fun (frame, ok) =>
    if ok then some (frame.take (frame.length - 4)) else none

theorem survivors_snoc {frames : List (List U8)} {allocs : List Bool}
    (hlen : allocs.length = frames.length) (x : List U8) (ok : Bool) :
    survivors (frames ++ [x]) (allocs ++ [ok]) =
      survivors frames allocs ++ (if ok then [x.take (x.length - 4)] else []) := by
  rw [survivors, List.zip_append hlen.symm, List.filterMap_append]
  cases ok <;> rfl

/-- Frames without an allocation do not count yet. -/
theorem survivors_append {frames : List (List U8)} {allocs : List Bool}
    (hlen : allocs.length = frames.length) (q : List (List U8)) :
    survivors (frames ++ q) allocs = survivors frames allocs := by
  have hzip : (frames ++ q).zip (allocs ++ []) = frames.zip allocs ++ q.zip [] :=
    List.zip_append hlen.symm
  rw [List.append_nil, List.zip_nil_right, List.append_nil] at hzip
  rw [survivors, hzip, survivors]

def frameOf (d : ℕ) (x : List U8) : FrameTypeDef :=
  ⟨BitVec.ofNat 32 (x.length - 4), d * ethMaxPacketSize, some d⟩

/-- The handler while `done` frames are finished and `q` are in the ring: `get` is the
head pointer, `allocs` and `inputs` what it did so far. Between `eth_rx_packet` and the
return of the descriptor the head pointer is one ahead of the frame in hand. -/
def RxPc.Inv (n get : ℕ) (allocs : List Bool) (inputs done q : List (List U8)) : RxPc → Prop
  | .test => get = slot n 0 done.length ∧ allocs.length = done.length ∧ inputs = survivors done allocs
  | .packet => get = slot n 0 done.length ∧ allocs.length = done.length ∧
      inputs = survivors done allocs ∧ q ≠ []
  | .alloc frame => get = slot n 0 (done.length + 1) ∧ allocs.length = done.length ∧
      inputs = survivors done allocs ∧ ∃ x q', q = x :: q' ∧ frame = frameOf (slot n 0 done.length) x
  | .handling frame p rest l => get = slot n 0 (done.length + 1) ∧
      ∃ before, allocs = before ++ [p.isSome] ∧ before.length = done.length ∧
        inputs = survivors done before ∧
        ∃ x q', q = x :: q' ∧ frame = frameOf (slot n 0 done.length) x ∧
          (p = none → rest = []) ∧ ∀ c ∈ p, c.flatten = x.take l ∧ l + rest.sum = x.length - 4
  | .input p => get = slot n 0 done.length ∧ allocs.length = done.length ∧
      survivors done allocs = inputs ++ (p.map List.flatten).toList
  | .fault => False

structure RxInv (n : ℕ) (s : EthRx) (done q : List (List U8)) : Prop where
  linked : Linked n s.tab
  ring : Ring n (fun d => ¬(s.tab d).Own) s.stored (slot n 0 done.length) q
  good : ∀ d < n, ¬(s.tab d).Own → GoodStatus (s.tab d).status (s.stored d).length
  dma : s.dmaDesc = slot n 0 s.received.length
  frames : s.received.map Prod.snd = done ++ q
  places : s.received.map Prod.fst = (List.range s.received.length).map (slot n 0)
  returned : s.returned = (List.range done.length).map (slot n 0)
  pc : s.pc.Inv n s.dmaRxDescToGet s.allocs s.inputs done q

variable {n : ℕ} {s : EthRx} {done q : List (List U8)}

namespace RxInv

theorem pos (h : RxInv n s done q) : 0 < n := by
  have := h.ring.head_lt
  omega

theorem received_length (h : RxInv n s done q) : s.received.length = done.length + q.length := by
  rw [← List.length_append, ← h.frames, List.length_map]

/-- The DMA is at the first descriptor behind the frames in the ring. -/
theorem dma_tail (h : RxInv n s done q) : s.dmaDesc = slot n (slot n 0 done.length) q.length := by
  rw [h.dma, h.received_length, slot_slot]

theorem dma_next (h : RxInv n s done q) :
    (s.tab s.dmaDesc).buffer2NextDescAddr = slot n 0 (s.received.length + 1) := by
  rw [h.dma, (h.linked _ (slot_lt h.pos _ _)).2, slot_slot]

end RxInv

/-- A frame added behind the others does not concern the handler. -/
theorem RxPc.Inv.append {pc : RxPc} {get : ℕ} {allocs : List Bool} {inputs : List (List U8)}
    (h : pc.Inv n get allocs inputs done q) (x : List U8) : pc.Inv n get allocs inputs done (q ++ [x]) := by
  cases pc with
  | test | input | fault => exact h
  | packet =>
    obtain ⟨hget, hlen, hin, -⟩ := h
    exact ⟨hget, hlen, hin, by simp⟩
  | alloc frame =>
    obtain ⟨hget, hlen, hin, y, q', rfl, hframe⟩ := h
    exact ⟨hget, hlen, hin, y, q' ++ [x], rfl, hframe⟩
  | handling frame p rest l =>
    obtain ⟨hget, before, hallocs, hlen, hin, y, q', rfl, hhand⟩ := h
    exact ⟨hget, before, hallocs, hlen, hin, y, q' ++ [x], rfl, hhand⟩

namespace RxInv

/-- A frame stored in one buffer leaves the frames in the others. -/
theorem stored_blit_other (h : RxInv n s done q) {d e : ℕ} (hd : d < n) (he : e < n)
    (hno : ¬(s.tab d).Own) (hne : d ≠ e) {x : List U8} (hmax : x.length ≤ ethMaxPacketSize) :
    slice (blit s.rxBuff (s.tab e).buffer1Addr x) (s.tab d).buffer1Addr
      (rxFrameLength (s.tab d).status).toNat = s.stored d := by
  have hsize := (h.good d hd hno).2.2.2.2.2.2
  rw [EthRx.stored, slice_length] at hsize
  have hsucc : ∀ i, (i + 1) * ethMaxPacketSize = i * ethMaxPacketSize + ethMaxPacketSize :=
    fun i => Nat.succ_mul i _
  rw [EthRx.stored, (h.linked d hd).1, (h.linked e he).1]
  apply slice_blit_of_disjoint
  rcases buffer_disjoint hne with hlt | hgt
  · rw [hsucc] at hlt
    omega
  · rw [hsucc] at hgt
    omega

theorem dmaStep (h : RxInv n s done q) {x : List U8} {status : U32} (hgood : GoodStatus status x.length) :
    ∃ q', RxInv n (s.dmaStep x status) done q' := by
  unfold EthRx.dmaStep
  simp only
  split_ifs with hown
  · have hlt : s.dmaDesc < n := by
      rw [h.dma]
      exact slot_lt h.pos _ _
    have hnew : slice (blit s.rxBuff (s.tab s.dmaDesc).buffer1Addr x) (s.tab s.dmaDesc).buffer1Addr
        (rxFrameLength status).toNat = x := by
      rw [hgood.2.2.2.2.1]
      exact slice_blit _ _ _
    have hold : ∀ d < n, ¬(s.tab d).Own → d ≠ s.dmaDesc →
        slice (blit s.rxBuff (s.tab s.dmaDesc).buffer1Addr x) (s.tab d).buffer1Addr
          (rxFrameLength (s.tab d).status).toNat = s.stored d := fun d hd hno hne =>
      h.stored_blit_other hd hlt hno hne hgood.2.2.2.2.2.2
    refine ⟨q ++ [x], h.linked.update rfl rfl, ?_, fun d hd => ?_, ?_, ?_, ?_, h.returned, h.pc.append x⟩
    · refine h.ring.put_update (fun d => ¬d.Own) s.tab h.dma_tail (not_not_intro hown) ?_ ?_
        fun d hd hne hno => ?_
      · exact not_not_intro hgood.1
      · simp only [EthRx.stored, Function.update_self]
        exact hnew
      · simp only [EthRx.stored, Function.update_of_ne hne]
        exact hold d hd hno hne
    · rcases eq_or_ne d s.dmaDesc with rfl | hne
      · simp only [EthRx.stored, Function.update_self, hnew]
        exact fun _ => hgood
      · simp only [EthRx.stored, Function.update_of_ne hne]
        intro hno
        rw [hold d hd hno hne]
        exact h.good d hd hno
    · simp only [h.dma_next, List.length_append, List.length_singleton]
    · simp only [List.map_append, h.frames, List.append_assoc, List.map_cons, List.map_nil]
    · simp only [List.map_append, h.places, List.length_append, List.length_singleton, List.range_succ,
        List.map_cons, List.map_nil, h.dma]
  · exact ⟨q, h.linked, h.ring, h.good, h.dma, h.frames, h.places, h.returned, h.pc⟩

/-- The frame at the head of the ring: whole in its buffer, and within the limits. -/
theorem head (h : RxInv n s done q) {x : List U8} {q' : List (List U8)} (hq : q = x :: q') :
    ¬(s.tab (slot n 0 done.length)).Own ∧ s.stored (slot n 0 done.length) = x ∧
      GoodStatus (s.tab (slot n 0 done.length)).status x.length := by
  subst hq
  have hno : ¬(s.tab (slot n 0 done.length)).Own := h.ring.head_full_iff.mpr (List.cons_ne_nil _ _)
  have hx : s.stored (slot n 0 done.length) = x := h.ring.head_val
  refine ⟨hno, hx, ?_⟩
  rw [← hx]
  exact h.good _ (slot_lt h.pos _ _) hno

theorem test (h : RxInv n s done q) (hpc : s.pc = .test) : RxInv n s.cpuStep done q := by
  have hinv := h.pc
  rw [hpc] at hinv
  obtain ⟨hget, hlen, hin⟩ := hinv
  simp only [EthRx.cpuStep, hpc]
  split_ifs with hsize
  · have hno : ¬(s.tab s.dmaRxDescToGet).Own := by
      intro hown
      exact hsize (if_neg fun hc => hc.1 hown)
    rw [hget] at hno
    exact ⟨h.linked, h.ring, h.good, h.dma, h.frames, h.places, h.returned, hget, hlen, hin,
      h.ring.head_full_iff.mp hno⟩
  · exact h

/-- `eth_rx_packet` returns the oldest frame; the OWN test in it does not fire. -/
theorem packet (h : RxInv n s done q) (hpc : s.pc = .packet) : RxInv n s.cpuStep done q := by
  have hinv := h.pc
  rw [hpc] at hinv
  obtain ⟨hget, hlen, hin, hq⟩ := hinv
  obtain ⟨x, q', hcons⟩ := List.exists_cons_of_ne_nil hq
  obtain ⟨hno, -, -, hes, hls, hfs, hfl, hmin, -⟩ := h.head hcons
  have hlinked := h.linked _ (slot_lt h.pos 0 done.length)
  have hlength : rxFrameLength (s.tab (slot n 0 done.length)).status - 4 = BitVec.ofNat 32 (x.length - 4) := by
    have h4 : (4 : U32).toNat = 4 := rfl
    have hlt := (rxFrameLength (s.tab (slot n 0 done.length)).status).isLt
    apply BitVec.eq_of_toNat_eq
    rw [BitVec.toNat_sub, BitVec.toNat_ofNat, h4]
    omega
  have hframe : s.ethRxPacket = (frameOf (slot n 0 done.length) x,
      { s with dmaRxDescToGet := slot n 0 (done.length + 1) }) := by
    unfold EthRx.ethRxPacket
    rw [hget]
    simp only [if_neg hno]
    rw [if_pos ⟨hes, hls, hfs⟩, hlength, hlinked.1, hlinked.2, slot_slot]
    rfl
  simp only [EthRx.cpuStep, hpc, hframe]
  exact ⟨h.linked, h.ring, h.good, h.dma, h.frames, h.places, h.returned, rfl, hlen, hin, x, q', hcons, rfl⟩

theorem alloc (h : RxInv n s done q) {lens : Option (List ℕ)} (hready : EthRx.MayAlloc lens s.pc) :
    RxInv n (s.pbufAlloc lens) done q := by
  unfold EthRx.pbufAlloc
  split
  · next frame hpc =>
    have hinv := h.pc
    rw [hpc] at hinv hready
    obtain ⟨hget, hlen, hin, x, q', hcons, rfl⟩ := hinv
    obtain ⟨-, -, hgood⟩ := h.head hcons
    have hmax : x.length ≤ 1524 := hgood.2.2.2.2.2.2
    refine ⟨h.linked, h.ring, h.good, h.dma, h.frames, h.places, h.returned, hget, s.allocs, ?_, hlen, hin, x, q',
      hcons, rfl, ?_, ?_⟩
    · cases lens <;> rfl
    · intro hnone
      rw [Option.map_eq_none_iff.mp hnone, Option.getD_none]
    · intro c hc
      obtain ⟨l, rfl, rfl⟩ := Option.map_eq_some_iff.mp hc
      have hsum : l.sum = ((BitVec.ofNat 32 (x.length - 4)).setWidth 16).toNat := hready l rfl
      rw [BitVec.toNat_setWidth, BitVec.toNat_ofNat] at hsum
      rw [List.take_zero, Option.getD_some, hsum]
      exact ⟨rfl, by omega⟩
  · exact h

/-- One round of the copy loop reads the next bytes of the frame in hand. -/
theorem copy (h : RxInv n s done q) {frame : FrameTypeDef} {p : Option (List (List U8))} {len l : ℕ}
    {rest : List ℕ} (hpc : s.pc = .handling frame p (len :: rest) l) : RxInv n s.cpuStep done q := by
  have hinv := h.pc
  rw [hpc] at hinv
  obtain ⟨hget, before, hallocs, hlen, hin, x, q', hcons, rfl, hnone, hcopied⟩ := hinv
  obtain ⟨-, hx, hgood⟩ := h.head hcons
  have hbuf : ∀ k ≤ x.length, slice s.rxBuff (slot n 0 done.length * ethMaxPacketSize) k = x.take k := by
    intro k hk
    rw [← slice_take _ _ hk]
    rw [EthRx.stored, (h.linked _ (slot_lt h.pos _ _)).1, hgood.2.2.2.2.1] at hx
    rw [hx]
  simp only [EthRx.cpuStep, hpc]
  refine ⟨h.linked, h.ring, h.good, h.dma, h.frames, h.places, h.returned, hget, before, ?_, hlen, hin, x, q',
    hcons, rfl, ?_, ?_⟩
  · rw [hallocs, Option.isSome_map]
  · intro hp
    exact absurd (hnone (Option.map_eq_none_iff.mp hp)) (List.cons_ne_nil _ _)
  · intro c hc
    obtain ⟨c, rfl, rfl⟩ := Option.map_eq_some_iff.mp hc
    obtain ⟨hflat, hsum⟩ := hcopied c rfl
    rw [List.sum_cons] at hsum
    refine ⟨?_, by omega⟩
    rw [List.flatten_append, List.flatten_singleton, hflat, ← hbuf l (by omega), ← hbuf (l + len) (by omega),
      slice_append]
    rfl

/-- The descriptor goes back with the copy complete; its frame is done. -/
theorem giveBack (h : RxInv n s done q) {frame : FrameTypeDef} {p : Option (List (List U8))} {l : ℕ}
    (hpc : s.pc = .handling frame p [] l) : ∃ done' q', RxInv n s.cpuStep done' q' := by
  have hinv := h.pc
  rw [hpc] at hinv
  obtain ⟨hget, before, hallocs, hlen, hin, x, q', rfl, rfl, -, hcopied⟩ := hinv
  have hown : ownBit &&& ownBit ≠ 0 := by decide
  simp only [EthRx.cpuStep, hpc, EthRx.giveBack, frameOf]
  refine ⟨done ++ [x], q', h.linked.update rfl rfl, ?_, fun d hd => ?_, h.dma, ?_, h.places, ?_, ?_, ?_, ?_⟩
  · rw [List.length_append, List.length_singleton, ← slot_slot]
    refine h.ring.take_update (fun d => ¬d.Own) s.tab ?_ fun d _ hne _ => ?_
    · exact not_not_intro hown
    · simp only [EthRx.stored, Function.update_of_ne hne]
  · simp only [EthRx.stored, Function.update_apply]
    split_ifs with heq
    · exact fun hno => absurd hown hno
    · exact h.good d hd
  · rw [h.frames, List.append_assoc, List.singleton_append]
  · rw [h.returned, List.length_append, List.length_singleton, List.range_succ, List.map_append]
    rfl
  · rw [hget, List.length_append, List.length_singleton]
  · rw [hallocs, List.length_append, List.length_append, hlen]
    rfl
  · rw [hallocs, survivors_snoc hlen, ← hin]
    cases p with
    | none => rfl
    | some c =>
      obtain ⟨hflat, hsum⟩ := hcopied c rfl
      rw [List.sum_nil, Nat.add_zero] at hsum
      rw [Option.map_some, hflat, hsum]
      rfl

theorem input (h : RxInv n s done q) {p : Option (List (List U8))} (hpc : s.pc = .input p) :
    RxInv n s.cpuStep done q := by
  have hinv := h.pc
  rw [hpc] at hinv
  obtain ⟨hget, hlen, hin⟩ := hinv
  cases p with
  | none =>
    simp only [EthRx.cpuStep, hpc]
    exact ⟨h.linked, h.ring, h.good, h.dma, h.frames, h.places, h.returned, hget, hlen,
      by simpa using hin.symm⟩
  | some p =>
    simp only [EthRx.cpuStep, hpc]
    exact ⟨h.linked, h.ring, h.good, h.dma, h.frames, h.places, h.returned, hget, hlen, hin.symm⟩

theorem step {s' : EthRx} {e : RxEvent} (h : RxInv n s done q) (hs : RxStep s e s') :
    ∃ done' q', RxInv n s' done' q' := by
  obtain ⟨hready, rfl⟩ := hs
  cases e with
  | dma x status => exact ⟨done, h.dmaStep hready⟩
  | alloc lens => exact ⟨done, q, h.alloc hready⟩
  | cpu =>
    cases hpc : s.pc with
    | test => exact ⟨done, q, h.test hpc⟩
    | packet => exact ⟨done, q, h.packet hpc⟩
    | alloc frame =>
      refine ⟨done, q, ?_⟩
      simpa only [EthRx.next, EthRx.cpuStep, hpc] using h
    | handling frame p rest l =>
      cases rest with
      | nil => exact h.giveBack hpc
      | cons len rest => exact ⟨done, q, h.copy hpc⟩
    | input p => exact ⟨done, q, h.input hpc⟩
    | fault =>
      have hinv := h.pc
      rw [hpc] at hinv
      exact hinv.elim

end RxInv

namespace RxInv

/-- The payloads passed on so far, and at the loop test all that are due. -/
theorem inputs (h : RxInv n s done q) :
    s.inputs <+: survivors (done ++ q) s.allocs ∧ s.allocs.length ≤ done.length + q.length ∧
      (s.pc = .test → s.inputs = survivors (done ++ q) s.allocs ∧ s.allocs.length = done.length) := by
  have hinv := h.pc
  cases hpc : s.pc <;> rw [hpc] at hinv
  case test =>
    obtain ⟨-, hlen, hin⟩ := hinv
    rw [survivors_append hlen, hin]
    exact ⟨List.prefix_rfl, by omega, fun _ => ⟨rfl, hlen⟩⟩
  case packet | alloc =>
    obtain ⟨-, hlen, hin, -⟩ := hinv
    rw [survivors_append hlen, hin]
    exact ⟨List.prefix_rfl, by omega, nofun⟩
  case handling frame p rest l =>
    obtain ⟨-, before, hallocs, hlen, hin, x, q', rfl, -⟩ := hinv
    have hone : (before ++ [p.isSome]).length = (done ++ [x]).length := by
      rw [List.length_append, List.length_append, hlen]
      rfl
    rw [hallocs, List.append_cons, survivors_append hone, survivors_snoc hlen, hin]
    refine ⟨List.prefix_append _ _, ?_, nofun⟩
    rw [List.length_append, List.length_singleton, List.length_cons]
    omega
  case input =>
    obtain ⟨-, hlen, hin⟩ := hinv
    rw [survivors_append hlen, hin]
    exact ⟨List.prefix_append _ _, by omega, nofun⟩
  case fault => exact hinv.elim

end RxInv

end Stm32F407
