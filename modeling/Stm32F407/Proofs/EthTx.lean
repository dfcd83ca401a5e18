import Stm32F407.Proofs.EthRing

/-! Transmission as a queue. `low_level_output` copies into the next buffer before it
tests who owns it; as long as this changes no frame that is still to be sent, the
DMA sends the accepted chains in order and byte for byte. -/

namespace Stm32F407

open Lib

/-- A `memcpy` of `low_level_output` into a buffer that the DMA owns writes only bytes
that are there already, or bytes behind the end of the frame. -/
def KeepsQueued (s : EthTx) (e : TxEvent) : Prop :=
  e = .copy → (s.tab s.dmaTxDescToSet).Own → ∀ p buffer l q rest, s.call = .copying p buffer l (q :: rest) →
    ∀ i, (h : i < q.length) → l + i < (s.tab s.dmaTxDescToSet).controlBufferSize.toNat →
      q[i] = s.txBuff (buffer + l + i)

theorem TxCall.more_iff {c : TxCall} :
    c.more = true ↔ ∃ p buffer l q rest, c = .copying p buffer l (q :: rest) := by
  unfold TxCall.more
  split
  · exact iff_of_true rfl ⟨_, _, _, _, _, rfl⟩
  · next hno => exact iff_of_false nofun fun ⟨p, buffer, l, q, rest, hc⟩ => hno p buffer l q rest hc

theorem TxCall.copied_iff {c : TxCall} : c.copied = true ↔ ∃ p buffer l, c = .copying p buffer l [] := by
  unfold TxCall.copied
  split
  · exact iff_of_true rfl ⟨_, _, _, rfl⟩
  · next hno => exact iff_of_false nofun fun ⟨p, buffer, l, hc⟩ => hno p buffer l hc

/-- The field `TBS1` holds every length up to the size of a buffer. -/
theorem tbs1_toNat {l : ℕ} (hl : l ≤ ethMaxPacketSize) :
    ((BitVec.ofNat 16 l).setWidth 32 &&& 0x1FFF : U32).toNat = l := by
  have hmax : ethMaxPacketSize = 1524 := rfl
  rw [tbs1_mod, BitVec.toNat_ofNat]
  omega

def TxCall.Copied (txBuff : ℕ → U8) (b : ℕ) : TxCall → Prop
  | .none => True
  | .copying p buffer l rest => buffer = b ∧ p.flatten.length ≤ ethMaxPacketSize ∧
      ∃ done, p.flatten = done ++ rest.flatten ∧ done.length = l ∧ Holds txBuff b done

structure TxInv (n : ℕ) (s : EthTx) (q : List (List U8)) : Prop where
  linked : Linked n s.tab
  ring : Ring n (fun d => (s.tab d).Own) s.frame s.dmaDesc q
  tail : s.dmaTxDescToSet = slot n s.dmaDesc q.length
  sizes : ∀ d < n, (s.tab d).Own → (s.tab d).controlBufferSize.toNat ≤ ethMaxPacketSize
  order : s.sent ++ q = s.accepted
  call : s.call.Copied s.txBuff (s.dmaTxDescToSet * ethMaxPacketSize)

variable {n : ℕ} {s : EthTx} {q : List (List U8)}

theorem txInv_start (hn : 1 ≤ n) (tab : ℕ → EthDmaDesc) (txBuff : ℕ → U8) (dmaSr : U32) :
    TxInv n (EthTx.start n tab txBuff dmaSr) [] := by
  have hfree : ∀ d < n, ¬((EthTx.start n tab txBuff dmaSr).tab d).Own :=
    fun _ hd => not_own_txChainInit tab hd
  refine ⟨linked_chainInit _ n tab, Ring.empty hn hfree, (slot_zero hn).symm, fun d hd hown => ?_, rfl,
    trivial⟩
  exact absurd hown (hfree d hd)

namespace TxInv

theorem pos (h : TxInv n s q) : 0 < n := by
  have := h.ring.head_lt
  omega

theorem tail_lt (h : TxInv n s q) : s.dmaTxDescToSet < n := by
  rw [h.tail]
  exact slot_lt h.pos _ _

/-- The tail moves on with the queue. -/
theorem next_tail (h : TxInv n s q) : (s.tab s.dmaTxDescToSet).buffer2NextDescAddr =
    slot n s.dmaDesc (q.length + 1) := by
  rw [(h.linked _ h.tail_lt).2, h.tail, slot_slot]

theorem output (h : TxInv n s q) (p : List (List U8)) (hp : p.flatten.length ≤ ethMaxPacketSize) :
    TxInv n (s.beginOutput p) q := by
  refine ⟨h.linked, h.ring, h.tail, h.sizes, h.order, (h.linked _ h.tail_lt).1, hp, [], rfl, rfl, ?_⟩
  exact holds_nil _ _

/-- Copying a pbuf stays inside the current buffer. -/
theorem copy_other (h : TxInv n s q) {p : List (List U8)} {buffer l : ℕ} {x : List U8}
    {rest : List (List U8)} (hcall : s.call = .copying p buffer l (x :: rest)) {d : ℕ} (hd : d < n)
    (hown : (s.tab d).Own) (hne : d ≠ s.dmaTxDescToSet) : s.copyPbuf.frame d = s.frame d := by
  have hc := h.call
  rw [hcall] at hc
  obtain ⟨rfl, hlen, done, hflat, rfl, -⟩ := hc
  have hsize := h.sizes d hd hown
  have hroom : done.length + x.length ≤ ethMaxPacketSize := by
    rw [hflat, List.length_append, List.flatten_cons, List.length_append] at hlen
    omega
  have hsucc : ∀ i, (i + 1) * ethMaxPacketSize = i * ethMaxPacketSize + ethMaxPacketSize :=
    fun i => Nat.succ_mul i _
  simp only [EthTx.frame, EthTx.copyPbuf, hcall, (h.linked d hd).1]
  apply slice_blit_of_disjoint
  rcases buffer_disjoint hne with hlt | hgt
  · rw [hsucc] at hlt
    omega
  · rw [hsucc] at hgt
    omega

/-- The frame in the current buffer survives exactly the copies that `KeepsQueued` allows. -/
theorem copy_tail_iff (h : TxInv n s q) {p : List (List U8)} {buffer l : ℕ} {x : List U8}
    {rest : List (List U8)} (hcall : s.call = .copying p buffer l (x :: rest)) :
    s.copyPbuf.frame s.dmaTxDescToSet = s.frame s.dmaTxDescToSet ↔
      ∀ i, (hi : i < x.length) → l + i < (s.tab s.dmaTxDescToSet).controlBufferSize.toNat →
        x[i] = s.txBuff (buffer + l + i) := by
  have hc := h.call
  rw [hcall] at hc
  obtain ⟨rfl, -⟩ := hc
  simp only [EthTx.frame, EthTx.copyPbuf, hcall, (h.linked _ h.tail_lt).1]
  exact slice_blit_eq_iff

theorem copy (h : TxInv n s q) {p : List (List U8)} {buffer l : ℕ} {x : List U8}
    {rest : List (List U8)} (hcall : s.call = .copying p buffer l (x :: rest))
    (hkeep : KeepsQueued s .copy) : TxInv n s.copyPbuf q := by
  have htab : s.copyPbuf.tab = s.tab := by simp only [EthTx.copyPbuf, hcall]
  have hring : Ring n (fun d => (s.tab d).Own) s.copyPbuf.frame s.dmaDesc q := by
    refine h.ring.congr (fun _ _ => Iff.rfl) fun d hd hown => ?_
    rcases eq_or_ne d s.dmaTxDescToSet with rfl | hne
    · exact (h.copy_tail_iff hcall).mpr (hkeep rfl hown p buffer l x rest hcall)
    · exact h.copy_other hcall hd hown hne
  have hc := h.call
  rw [hcall] at hc
  obtain ⟨rfl, hlen, done, hflat, rfl, hdone⟩ := hc
  simp only [EthTx.copyPbuf, hcall] at hring ⊢
  refine ⟨h.linked, hring, h.tail, h.sizes, h.order, rfl, hlen, done ++ x, ?_, ?_, ?_⟩
  · rw [hflat, List.flatten_cons, List.append_assoc]
  · rw [List.length_append]
  · rw [holds_append]
    exact ⟨hdone.congr fun i hi => blit_outside _ _ (by omega), holds_blit _ _ _⟩

theorem finish (h : TxInv n s q) {p : List (List U8)} {buffer l : ℕ}
    (hcall : s.call = .copying p buffer l []) : ∃ q', TxInv n s.finishOutput q' := by
  have hc := h.call
  rw [hcall] at hc
  obtain ⟨rfl, hlen, done, hflat, rfl, hdone⟩ := hc
  rw [List.flatten_nil, List.append_nil] at hflat
  subst hflat
  have hsize := tbs1_toNat hlen
  have hres : ethSuccess ≠ ethError := by decide
  simp only [EthTx.finishOutput, hcall, EthTx.ethTxPacket]
  by_cases hown : (s.tab s.dmaTxDescToSet).Own
  · rw [if_pos hown, if_pos rfl]
    exact ⟨q, h.linked, h.ring, h.tail, h.sizes, h.order, trivial⟩
  · rw [if_neg hown, if_neg hres]
    refine ⟨q ++ [p.flatten], h.linked.update rfl rfl, ?_, ?_, ?_, ?_, trivial⟩
    · -- the free descriptor at the tail takes the whole chain
      refine h.ring.put_update EthDmaDesc.Own s.tab h.tail hown (own_or _) ?_ fun d _ hne _ => ?_
      · simp only [EthTx.frame, Function.update_self, hsize, (h.linked _ h.tail_lt).1]
        exact hdone
      · simp only [EthTx.frame, Function.update_of_ne hne]
    · simp only [h.next_tail, List.length_append, List.length_singleton]
    · intro d hd
      simp only [Function.update_apply]
      split_ifs
      · rw [hsize]
        exact fun _ => hlen
      · exact h.sizes d hd
    · simp only
      rw [← h.order, List.append_assoc]

theorem dma (h : TxInv n s q) : ∃ q', TxInv n s.dmaStep q' := by
  unfold EthTx.dmaStep
  simp only
  split_ifs with hown
  · obtain ⟨x, q', rfl⟩ := List.exists_cons_of_ne_nil (h.ring.head_full_iff.mp hown)
    have hhead := h.ring.head_lt
    refine ⟨q', h.linked.update rfl rfl, ?_, ?_, ?_, ?_, h.call⟩
    · simp only [(h.linked _ hhead).2]
      refine h.ring.take_update EthDmaDesc.Own s.tab (not_not_intro (not_own_and _)) fun d _ hne _ => ?_
      simp only [EthTx.frame, Function.update_of_ne hne]
    · simp only [(h.linked _ hhead).2, slot_slot, h.tail, List.length_cons, Nat.add_comm 1]
    · intro d hd
      simp only [Function.update_apply]
      split_ifs with hd'
      · subst hd'
        exact fun _ => h.sizes _ hd hown
      · exact h.sizes d hd
    · simp only
      rw [List.append_assoc, h.ring.head_val, List.singleton_append, h.order]
  · exact ⟨q, h.linked, h.ring, h.tail, h.sizes, h.order, h.call⟩

theorem step {s' : EthTx} {e : TxEvent} (h : TxInv n s q) (hs : Guarded TxStep KeepsQueued s e s') :
    ∃ q', TxInv n s' q' := by
  obtain ⟨hkeep, hready, rfl⟩ := hs
  cases e with
  | output p => exact ⟨q, h.output p hready.2⟩
  | copy =>
    obtain ⟨p, buffer, l, x, rest, hcall⟩ := TxCall.more_iff.mp hready
    exact ⟨q, h.copy hcall hkeep⟩
  | finish =>
    obtain ⟨p, buffer, l, hcall⟩ := TxCall.copied_iff.mp hready
    exact h.finish hcall
  | dma => exact h.dma

theorem inFlight (h : TxInv n s q) : s.inFlight n = q := h.ring.walk_eq fun d hd => (h.linked d hd).2

end TxInv

theorem txInv_run (hn : 1 ≤ n) {tab : ℕ → EthDmaDesc} {txBuff : ℕ → U8} {dmaSr : U32}
    {evs : List TxEvent} (hrun : Run (Guarded TxStep KeepsQueued) (EthTx.start n tab txBuff dmaSr) evs s) :
    ∃ q, TxInv n s q := by
  have hstep : ∀ s e s', (∃ q, TxInv n s q) → Guarded TxStep KeepsQueued s e s' → ∃ q, TxInv n s' q :=
    fun _ _ _ ⟨_, h⟩ hs => h.step hs
  exact hrun.invariant ⟨[], txInv_start hn tab txBuff dmaSr⟩ hstep

/-- A copy that breaks the condition goes into the buffer the DMA is to send next. -/
theorem TxInv.copy_breaks (h : TxInv n s q) (hbreak : ¬KeepsQueued s .copy) :
    s.copyPbuf.inFlight n ≠ s.inFlight n := by
  simp only [KeepsQueued, true_imp_iff, not_forall] at hbreak
  obtain ⟨hown, p, buffer, l, x, rest, hcall, i, hi, hin, hne⟩ := hbreak
  have hdma : s.dmaTxDescToSet = s.dmaDesc := by
    have hfull : q.length = n := h.ring.tail_full_iff.mp (h.tail ▸ hown)
    rw [h.tail, hfull, slot_self h.ring.head_lt]
  have hother : s.copyPbuf.tab = s.tab ∧ s.copyPbuf.dmaDesc = s.dmaDesc := by
    simp only [EthTx.copyPbuf, hcall, and_self]
  intro heq
  have hhead := congrArg List.head? heq
  rw [EthTx.inFlight, EthTx.inFlight, hother.1, hother.2, walk_head h.pos (hdma ▸ hown),
    walk_head h.pos (hdma ▸ hown), Option.some_inj, ← hdma, h.copy_tail_iff hcall] at hhead
  exact hne (hhead i hi hin)

/-- In every run whose copies keep the queued frames, the frames sent are a prefix of the
chains accepted, and the frames still in the buffers are the rest. The condition is
exact: the first copy that breaks it alters a frame that is still to be sent. -/
theorem tx_fifo (n : ℕ) (hn : 1 ≤ n) (tab : ℕ → EthDmaDesc) (txBuff : ℕ → U8) (dmaSr : U32)
    {evs : List TxEvent} {s : EthTx}
    (hrun : Run (Guarded TxStep KeepsQueued) (EthTx.start n tab txBuff dmaSr) evs s) :
    (s.sent <+: s.accepted ∧ s.sent ++ s.inFlight n = s.accepted) ∧
      ∀ e s', TxStep s e s' → ¬KeepsQueued s e → s'.sent ++ s'.inFlight n ≠ s'.accepted := by
  obtain ⟨q, h⟩ := txInv_run hn hrun
  refine ⟨⟨⟨q, h.order⟩, by rw [h.inFlight, h.order]⟩, fun e s' hs hbreak => ?_⟩
  obtain rfl : e = .copy := by
    by_contra hne
    exact hbreak fun heq => absurd heq hne
  obtain ⟨hready, rfl⟩ := hs
  obtain ⟨p, buffer, l, x, rest, hcall⟩ := TxCall.more_iff.mp hready
  have hlog : s.copyPbuf.sent = s.sent ∧ s.copyPbuf.accepted = s.accepted := by
    simp only [EthTx.copyPbuf, hcall, and_self]
  intro heq
  rw [EthTx.next, hlog.1, hlog.2, ← h.order] at heq
  exact h.copy_breaks hbreak ((List.append_cancel_left heq).trans h.inFlight.symm)

/-- Two chains through a ring of two, the first one sent. -/
theorem tx_fifo_two :
    ∃ s, Run (Guarded TxStep KeepsQueued) (EthTx.start 2 (fun _ => ⟨0, 0, 0, 0⟩) (fun _ => 0) 0)
        [.output [[1], [2]], .copy, .copy, .finish, .output [[3]], .dma, .copy, .finish] s ∧
      s.sent = [[1, 2]] ∧ s.accepted = [[1, 2], [3]] ∧ s.inFlight 2 = [[3]] := by
  let evs : List TxEvent :=
    [.output [[1], [2]], .copy, .copy, .finish, .output [[3]], .dma, .copy, .finish]
  have hadm : Admitted EthTx.next (fun s e => ¬(s.tab s.dmaTxDescToSet).Own ∧ s.Ready e)
      (EthTx.start 2 (fun _ => ⟨0, 0, 0, 0⟩) (fun _ => 0) 0) evs := by decide +kernel
  have hrun : Run (Guarded TxStep KeepsQueued) _ evs _ :=
    Run.of_admitted (fun s e h => ⟨fun _ hown => absurd hown h.1, h.2, rfl⟩) hadm
  have hsent : (evs.foldl EthTx.next (EthTx.start 2 (fun _ => ⟨0, 0, 0, 0⟩) (fun _ => 0) 0)).sent =
      [[1, 2]] := by decide +kernel
  have hacc : (evs.foldl EthTx.next (EthTx.start 2 (fun _ => ⟨0, 0, 0, 0⟩) (fun _ => 0) 0)).accepted =
      [[1, 2], [3]] := by decide +kernel
  have hfifo := (tx_fifo 2 (by decide) _ _ _ hrun).1.2
  rw [hsent, hacc] at hfifo
  exact ⟨_, hrun, hsent, hacc, List.append_cancel_left hfifo⟩

/-- A full ring of one: the second call returns `ERR_MEM`, and its chain is sent in the
place of the first. -/
theorem tx_not_fifo :
    ¬ ∀ (n : ℕ) (tab : ℕ → EthDmaDesc) (txBuff : ℕ → U8) (dmaSr : U32) (evs : List TxEvent) (s : EthTx),
      1 ≤ n → Run TxStep (EthTx.start n tab txBuff dmaSr) evs s → s.sent <+: s.accepted := by
  intro hall
  let evs : List TxEvent := [.output [[1]], .copy, .finish, .output [[2]], .copy, .finish, .dma]
  have hadm : Admitted EthTx.next EthTx.Ready
      (EthTx.start 1 (fun _ => ⟨0, 0, 0, 0⟩) (fun _ => 0) 0) evs := by decide +kernel
  have hrun : Run TxStep _ evs _ := Run.of_admitted (fun s e h => ⟨h, rfl⟩) hadm
  have hno : ¬(evs.foldl EthTx.next (EthTx.start 1 (fun _ => ⟨0, 0, 0, 0⟩) (fun _ => 0) 0)).sent <+:
      (evs.foldl EthTx.next (EthTx.start 1 (fun _ => ⟨0, 0, 0, 0⟩) (fun _ => 0) 0)).accepted := by
    decide +kernel
  exact hno (hall 1 _ _ _ evs _ (Nat.le_refl 1) hrun)

end Stm32F407
