import Stm32F407.Spec.EthCalls
import Stm32F407.Proofs.EthRing
import Mathlib.Data.List.TakeWhile

/-! `ETH_IRQHandler` on a ring in which the DMA has left arbitrary status words. A round
gives the head descriptor back whatever is in it, but the loop ends at the first
descriptor that its condition turns down, and those behind it wait with it. -/

namespace Stm32F407

open Lib

def Taken (status : U32) : Prop :=
  status &&& 0x8000 = 0 ∧ status &&& 0x100 ≠ 0 ∧ rxFrameLength status ≠ 0

instance (status : U32) : Decidable (Taken status) := inferInstanceAs (Decidable (_ ∧ _))

theorem ethGetRxPktSize_ne_zero_iff {d : EthDmaDesc} :
    ethGetRxPktSize d ≠ 0 ↔ ¬d.Own ∧ Taken d.status := by
  unfold ethGetRxPktSize Taken
  split_ifs with hcond
  · exact ⟨fun hlen => ⟨hcond.1, hcond.2.1, hcond.2.2, hlen⟩, fun htaken => htaken.2.2.2⟩
  · exact iff_of_false (fun hne => hne rfl) fun h => hcond ⟨h.1, h.2.1, h.2.2.1⟩

/-- The ring as the interrupt finds it: `q` are the status words of the descriptors that
the DMA has returned, from `DMARxDescToGet` on. -/
structure RxWaiting (n : ℕ) (s : EthRx) (q : List U32) : Prop where
  chained : ∀ d < n, (s.tab d).buffer2NextDescAddr = slot n d 1
  ring : Ring n (fun d => ¬(s.tab d).Own) (fun d => (s.tab d).status) s.dmaRxDescToGet q

theorem ethRxPacket_descriptor {s : EthRx} (hcpu : ¬(s.tab s.dmaRxDescToGet).Own) :
    s.ethRxPacket.1.descriptor = some s.dmaRxDescToGet := by
  unfold EthRx.ethRxPacket
  simp only [if_neg hcpu]
  split_ifs <;> rfl

/-- The descriptor goes back and the pointer goes on, whether the frame was accepted or
not and whether `pbuf_alloc` failed or not. -/
theorem lwipPktHandle_desc (s : EthRx) (lens : Option (List ℕ))
    (hcpu : ¬(s.tab s.dmaRxDescToGet).Own) :
    (s.lwipPktHandle lens).tab = Function.update s.tab s.dmaRxDescToGet
        { s.tab s.dmaRxDescToGet with status := ownBit } ∧
      (s.lwipPktHandle lens).dmaRxDescToGet = (s.tab s.dmaRxDescToGet).buffer2NextDescAddr := by
  have hdesc := ethRxPacket_descriptor hcpu
  have hstate : s.ethRxPacket.2 =
      { s with dmaRxDescToGet := (s.tab s.dmaRxDescToGet).buffer2NextDescAddr } := by
    simp only [EthRx.ethRxPacket, if_neg hcpu]
  simp only [EthRx.lwipPktHandle, EthRx.giveBack, hdesc, hstate]
  cases lens <;> exact ⟨rfl, rfl⟩

theorem RxWaiting.round {n : ℕ} {s : EthRx} {status : U32} {q : List U32}
    (h : RxWaiting n s (status :: q)) (lens : Option (List ℕ)) :
    RxWaiting n (s.lwipPktHandle lens) q := by
  have hlt := h.ring.head_lt
  have hcpu : ¬(s.tab s.dmaRxDescToGet).Own := h.ring.head_full_iff.mpr (by simp)
  obtain ⟨htab, hget⟩ := lwipPktHandle_desc s lens hcpu
  constructor
  · intro d hd
    rw [htab, Function.update_apply]
    split_ifs with hhead
    · rw [← hhead]
      exact h.chained d hd
    · exact h.chained d hd
  · rw [htab, hget, h.chained _ hlt]
    have hown : ownBit &&& ownBit ≠ 0 := by decide
    refine h.ring.take_update (fun d => ¬d.Own) s.tab ?_ fun d _ hne _ => ?_
    · exact not_not_intro hown
    · simp only [Function.update_of_ne hne]

/-- The copy loop of the handler step by step. -/
theorem copyPbufs_run {s : EthRx} {frame : FrameTypeDef} {rest : List ℕ} {l : ℕ}
    {p : Option (List (List U8))} (hpc : s.pc = .handling frame p rest l) :
    ∃ l', Run RxStep s (List.replicate rest.length .cpu)
      { s with pc := .handling frame (p.map (· ++ EthRx.copyPbufs s.rxBuff frame.buffer l rest)) [] l' } := by
  induction rest generalizing s p l with
  | nil =>
    refine ⟨l, run_nil_iff.mpr ?_⟩
    cases p <;> simp [EthRx.copyPbufs, ← hpc]
  | cons len rest ih =>
    let p₁ := p.map fun p => p ++ [slice s.rxBuff (frame.buffer + l) len]
    let s₁ : EthRx := { s with pc := .handling frame p₁ rest (l + len) }
    have hfirst : RxStep s .cpu s₁ := ⟨trivial, by simp only [EthRx.next, EthRx.cpuStep, hpc, s₁, p₁]⟩
    obtain ⟨l', hrest⟩ := ih (s := s₁) rfl
    refine ⟨l', ?_⟩
    have hrun := (Run.single hfirst).append hrest
    simp only [s₁, p₁, Option.map_map, Function.comp_def, List.append_assoc] at hrun
    exact hrun

/-- A round of the handler as one call is a run of the handler step by step. -/
theorem lwipPktHandle_run {s : EthRx} {lens : Option (List ℕ)} (hpc : s.pc = .test)
    (hgo : ethGetRxPktSize (s.tab s.dmaRxDescToGet) ≠ 0)
    (hlens : ∀ l ∈ lens, l.sum = (s.ethRxPacket.1.length.setWidth 16).toNat) :
    ∃ evs, Run RxStep s evs (s.lwipPktHandle lens) := by
  have hcpu := (ethGetRxPktSize_ne_zero_iff.mp hgo).1
  have hdesc := ethRxPacket_descriptor hcpu
  have hfetch : s.cpuStep.cpuStep = { s.ethRxPacket.2 with pc := .alloc s.ethRxPacket.1 } := by
    simp only [EthRx.cpuStep, EthRx.ethRxPacket, hpc, if_pos hgo, if_neg hcpu]
  have hcpuStep : ∀ t : EthRx, RxStep t .cpu t.cpuStep := fun t => ⟨trivial, rfl⟩
  have halloc : RxStep s.cpuStep.cpuStep (.alloc lens) (s.cpuStep.cpuStep.pbufAlloc lens) := by
    refine ⟨?_, rfl⟩
    rw [hfetch]
    exact hlens
  have hhandling : (s.cpuStep.cpuStep.pbufAlloc lens).pc =
      .handling s.ethRxPacket.1 (lens.map fun _ => []) (lens.getD []) 0 := by
    simp only [hfetch, EthRx.pbufAlloc]
  obtain ⟨l', hcopy⟩ := copyPbufs_run hhandling
  have hcopied := (((Run.single (hcpuStep s)).snoc (hcpuStep _)).snoc halloc).append hcopy
  have hround := (hcopied.snoc (hcpuStep _)).snoc (hcpuStep _)
  have hend : EthRx.cpuStep (EthRx.cpuStep { s.cpuStep.cpuStep.pbufAlloc lens with
      pc := .handling s.ethRxPacket.1 ((lens.map fun _ => []).map (· ++ EthRx.copyPbufs
        (s.cpuStep.cpuStep.pbufAlloc lens).rxBuff s.ethRxPacket.1.buffer 0 (lens.getD []))) [] l' }) =
      s.lwipPktHandle lens := by
    simp only [hfetch, EthRx.pbufAlloc, EthRx.lwipPktHandle]
    simp only [EthRx.cpuStep, EthRx.giveBack, hdesc]
    cases lens <;> rfl
  rw [hend] at hround
  exact ⟨_, hround⟩

theorem ethIRQHandler_stop {s : EthRx} (h : ethGetRxPktSize (s.tab s.dmaRxDescToGet) = 0)
    (allocs : ℕ → Option (List ℕ)) (rounds : ℕ) : EthRx.ethIRQHandler allocs rounds s = some s := by
  cases rounds with
  | zero => rw [EthRx.ethIRQHandler, if_neg (by simpa using h)]
  | succ rounds => rw [EthRx.ethIRQHandler, if_neg (by simpa using h)]

/-- The loop takes the descriptors up to the first one turned down, and needs no more rounds
than there are descriptors of the CPU. -/
theorem RxWaiting.drain {n : ℕ} {s : EthRx} {q : List U32} (h : RxWaiting n s q)
    (allocs : ℕ → Option (List ℕ)) {rounds : ℕ} (hrounds : q.length ≤ rounds) :
    ∃ s', EthRx.ethIRQHandler allocs rounds s = some s' ∧
      RxWaiting n s' (q.dropWhile fun status => Taken status) := by
  induction q generalizing s allocs rounds with
  | nil =>
    have hown : (s.tab s.dmaRxDescToGet).Own := by
      by_contra hcpu
      exact h.ring.head_full_iff.mp hcpu rfl
    have hstop : ethGetRxPktSize (s.tab s.dmaRxDescToGet) = 0 := by
      by_contra hne
      exact (ethGetRxPktSize_ne_zero_iff.mp hne).1 hown
    exact ⟨s, ethIRQHandler_stop hstop allocs rounds, h⟩
  | cons status q ih =>
    have hcpu : ¬(s.tab s.dmaRxDescToGet).Own := h.ring.head_full_iff.mpr (by simp)
    have hstatus : (s.tab s.dmaRxDescToGet).status = status := h.ring.head_val
    by_cases htaken : Taken status
    · obtain ⟨rounds, rfl⟩ : ∃ k, rounds = k + 1 :=
        ⟨rounds - 1, by rw [List.length_cons] at hrounds; omega⟩
      have hgo : ethGetRxPktSize (s.tab s.dmaRxDescToGet) ≠ 0 :=
        ethGetRxPktSize_ne_zero_iff.mpr ⟨hcpu, hstatus ▸ htaken⟩
      obtain ⟨s', hrun, hwait⟩ := ih (h.round (allocs 0)) (fun i => allocs (i + 1))
        (Nat.le_of_succ_le_succ hrounds)
      refine ⟨s', ?_, ?_⟩
      · rw [EthRx.ethIRQHandler, if_pos hgo, hrun]
      · rwa [List.dropWhile_cons_of_pos (by simpa using htaken)]
    · have hstop : ethGetRxPktSize (s.tab s.dmaRxDescToGet) = 0 := by
        by_contra hne
        exact htaken (hstatus ▸ (ethGetRxPktSize_ne_zero_iff.mp hne).2)
      refine ⟨s, ethIRQHandler_stop hstop allocs rounds, ?_⟩
      rwa [List.dropWhile_cons_of_neg (by simpa using htaken)]

/-- The DMA has all descriptors when none waits. -/
theorem RxWaiting.all_own_iff {n : ℕ} {s : EthRx} {q : List U32} (h : RxWaiting n s q) :
    (∀ d < n, (s.tab d).Own) ↔ q = [] := by
  constructor
  · intro hall
    by_contra hne
    exact h.ring.head_full_iff.mpr hne (hall _ h.ring.head_lt)
  · rintro rfl d hd
    obtain ⟨i, hi, rfl⟩ := exists_slot h.ring.head_lt hd
    by_contra hcpu
    exact absurd ((h.ring.full_iff i hi).mp hcpu) (by simp)

/-- The handler always ends within as many rounds as there are descriptors, and it leaves
all of them to the DMA exactly when its condition turns none of them down. -/
theorem irq_drains_iff (n : ℕ) (s : EthRx) (q : List U32) (allocs : ℕ → Option (List ℕ))
    (h : RxWaiting n s q) :
    ∃ s', EthRx.ethIRQHandler allocs n s = some s' ∧
      ((∀ d < n, (s'.tab d).Own) ↔ ∀ status ∈ q, Taken status) := by
  obtain ⟨s', hrun, hwait⟩ := h.drain allocs h.ring.length_le
  refine ⟨s', hrun, ?_⟩
  rw [hwait.all_own_iff, List.dropWhile_eq_nil_iff]
  simp

def rxPair (first second : U32) : EthRx where
  tab d := ⟨if d = 0 then first else second, 0, d * ethMaxPacketSize, slot 2 d 1⟩
  rxBuff _ := 0
  dmaRxDescToGet := 0
  dmaSr := 0
  pc := .test
  dmaDesc := 0
  received := []
  allocs := []
  inputs := []
  returned := []

theorem rxWaiting_pair (first second : U32) (h₀ : first &&& ownBit = 0) (h₁ : second &&& ownBit = 0) :
    RxWaiting 2 (rxPair first second) [first, second] := by
  have hcpu : ∀ d, ¬((rxPair first second).tab d).Own := by
    intro d
    simp only [rxPair, EthDmaDesc.Own]
    split_ifs <;> simp [h₀, h₁]
  refine ⟨fun d _ => rfl, Nat.zero_lt_two, le_rfl, fun i hi => iff_of_true (hcpu _) hi, fun i hi => ?_⟩
  have htwo : i < 2 := hi
  interval_cases i <;> rfl

/-- A frame of 64 bytes and one of 128, the second without its first segment. -/
theorem irq_drains_iff_two :
    ∃ s', EthRx.ethIRQHandler (fun _ => none) 2 (rxPair 0x00400300 0x00800100) = some s' ∧
      ∀ d < 2, (s'.tab d).Own := by
  obtain ⟨s', hrun, hiff⟩ := irq_drains_iff 2 _ _ (fun _ => none)
    (rxWaiting_pair 0x00400300 0x00800100 (by decide) (by decide))
  refine ⟨s', hrun, hiff.mpr ?_⟩
  simp only [List.mem_cons, List.not_mem_nil, or_false, forall_eq_or_imp, forall_eq]
  exact ⟨by decide, by decide⟩

/-- A frame of 1600 bytes over two descriptors: the first has no length and no last
segment, and the loop ends at it. -/
theorem irq_not_drained :
    ¬ ∀ (n : ℕ) (s : EthRx) (q : List U32) (allocs : ℕ → Option (List ℕ)), RxWaiting n s q →
      ∃ s', EthRx.ethIRQHandler allocs n s = some s' ∧ ∀ d < n, (s'.tab d).Own := by
  intro hall
  obtain ⟨s', hrun, hown⟩ := hall 2 (rxPair 0x00000200 0x06400100) _ (fun _ => none)
    (rxWaiting_pair _ _ (by decide) (by decide))
  have hstop : EthRx.ethIRQHandler (fun _ => none) 2 (rxPair 0x00000200 0x06400100) =
      some (rxPair 0x00000200 0x06400100) := ethIRQHandler_stop (by decide) _ _
  rw [hstop, Option.some_inj] at hrun
  subst hrun
  exact absurd (hown 0 (by decide)) (by decide)

end Stm32F407
