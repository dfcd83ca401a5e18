import Mathlib.Data.List.Cycle
import Mathlib.Tactic

/-! Rings of nodes linked both ways. A ring is a list of nodes up to rotation in
which each node points to its neighbours; a node is spliced in before another one or
unlinked, and nodes outside the ring do not matter. -/

namespace Lib

variable {N : Type*} {next prev next' prev' : N → N} {l l' : List N} {a x z : N}

/-- `b` follows `a`, and both know it. -/
def Linked (next prev : N → N) (a b : N) : Prop := next a = b ∧ prev b = a

/-- The nodes of `l`, in this order and from the last to the first again, are linked. -/
def IsRing (next prev : N → N) (l : List N) : Prop := Cycle.Chain (Linked next prev) (l : Cycle N)

theorem isRing_append_comm : IsRing next prev (l ++ l') ↔ IsRing next prev (l' ++ l) := by
  unfold IsRing
  rw [Cycle.coe_eq_coe.mpr List.isRotated_append]

/-- A ring read from the node `a` round to `a`. -/
theorem isRing_snoc : IsRing next prev (l ++ [a]) ↔ List.IsChain (Linked next prev) (a :: (l ++ [a])) := by
  rw [isRing_append_comm, IsRing, List.singleton_append, Cycle.chain_coe_cons]

/-- The first node's `prev` and the last node's `next` are not part of a chain. -/
theorem isChain_linked_congr (h : List.IsChain (Linked next prev) l)
    (hnext : ∀ b ∈ l.dropLast, next' b = next b) (hprev : ∀ b ∈ l.tail, prev' b = prev b) :
    List.IsChain (Linked next' prev') l := by
  induction l with
  | nil => exact List.isChain_nil
  | cons b l ih =>
    cases l with
    | nil => exact List.isChain_singleton b
    | cons c l =>
      rw [List.isChain_cons_cons] at h ⊢
      obtain ⟨⟨hn, hp⟩, hrest⟩ := h
      refine ⟨⟨?_, ?_⟩, ih hrest (fun d hd => ?_) (fun d hd => ?_)⟩
      · rw [hnext b (by simp), hn]
      · rw [hprev c (by simp), hp]
      · exact hnext d (by simp [hd])
      · exact hprev d (List.mem_cons_of_mem c hd)

theorem IsRing.congr (h : IsRing next prev l) (hnext : ∀ b ∈ l, next' b = next b)
    (hprev : ∀ b ∈ l, prev' b = prev b) : IsRing next' prev' l := by
  induction l using List.reverseRecOn with
  | nil => exact Cycle.Chain.nil _
  | append_singleton l a _ =>
    rw [isRing_snoc] at h ⊢
    refine isChain_linked_congr h (fun b hb => hnext b ?_) (fun b hb => hprev b hb)
    rw [List.dropLast_cons_of_ne_nil (by simp), List.dropLast_concat] at hb
    rcases List.mem_cons.mp hb with rfl | hb
    · simp
    · exact List.mem_append_left _ hb

/-- A single node is a ring. -/
theorem isRing_singleton : IsRing next prev [a] ↔ Linked next prev a a := Cycle.chain_singleton _ a

/-- Consecutive nodes of a ring are linked. -/
theorem IsRing.linked (h : IsRing next prev (l ++ a :: x :: l')) : Linked next prev a x := by
  rw [isRing_append_comm, List.cons_append, IsRing, Cycle.chain_coe_cons, List.cons_append,
    List.cons_append, List.isChain_cons_cons] at h
  exact h.1

/-- What precedes the node at which a ring is read. -/
theorem IsRing.prev_snoc (h : IsRing next prev (l ++ [z])) : prev z = (z :: l).getLast (by simp) := by
  rw [isRing_snoc, ← List.cons_append, List.isChain_append] at h
  exact (h.2.2 _ (List.getLast?_eq_getLast_of_ne_nil (by simp)) z rfl).2

/-- What follows the node at which a ring is read. -/
theorem IsRing.next_snoc (h : IsRing next prev (x :: l ++ [z])) : next z = x := by
  rw [isRing_snoc, List.cons_append, List.isChain_cons_cons] at h
  exact h.1.1

/-- The link between two consecutive parts of a ring read round to `z`. -/
theorem IsRing.linked_getLast (h : IsRing next prev (l ++ x :: l'))
    (hz : (x :: l').getLast? = some z) : Linked next prev ((z :: l).getLast (by simp)) x := by
  obtain ⟨t, ht⟩ : ∃ t, x :: l' = t ++ [z] := ⟨_, (List.getLast?_eq_some_iff.mp hz).choose_spec⟩
  rw [ht, ← List.append_assoc, isRing_snoc, List.append_assoc, ← ht, ← List.cons_append,
    List.isChain_append] at h
  exact h.2.2 _ (List.getLast?_eq_getLast_of_ne_nil (by simp)) x rfl

section Splice

variable [DecidableEq N]

/-- `x` put between `p` and `z`. -/
def spliceNext (next : N → N) (p x z : N) : N → N := Function.update (Function.update next x z) p x

def splicePrev (prev : N → N) (p x z : N) : N → N := Function.update (Function.update prev x p) z x

/-- A node spliced in before `z` is the last of the ring read up to `z`. -/
theorem IsRing.splice (h : IsRing next prev (l ++ [z])) (hnd : (l ++ [z]).Nodup)
    (hx : x ∉ l ++ [z]) :
    IsRing (spliceNext next (prev z) x z) (splicePrev prev (prev z) x z) (l ++ [x, z]) := by
  have hp := h.prev_snoc
  have hpx : prev z ≠ x := by
    rintro rfl
    rw [hp] at hx
    refine hx ?_
    have hmem := List.getLast_mem (l := z :: l) (by simp)
    rw [List.mem_append, List.mem_singleton, or_comm]
    exact List.mem_cons.mp hmem
  have hzx : z ≠ x := by
    rintro rfl
    simp at hx
  have hring := h
  rw [isRing_snoc, ← List.cons_append, List.isChain_append] at hring
  have hcons : l ++ [x, z] = (l ++ [x]) ++ [z] := by simp
  rw [hcons, isRing_snoc, ← List.cons_append, ← List.cons_append, List.append_assoc,
    List.isChain_append]
  refine ⟨isChain_linked_congr hring.1 (fun b hb => ?_) (fun b hb => ?_), ?_, ?_⟩
  · -- the last node of the chain is `prev z`
    have hne : b ≠ prev z := by
      rintro rfl
      rw [hp] at hb
      have hnd' : (z :: l).Nodup := by
        rw [List.nodup_append_comm] at hnd
        exact hnd
      rw [← List.dropLast_append_getLast (l := z :: l) (by simp), List.nodup_append] at hnd'
      exact hnd'.2.2 _ hb _ (List.mem_singleton_self _) rfl
    have hbx : b ≠ x := by
      rintro rfl
      refine hx ?_
      have hmem := List.dropLast_subset _ hb
      rw [List.mem_append, List.mem_singleton, or_comm]
      exact List.mem_cons.mp hmem
    rw [spliceNext, Function.update_of_ne hne, Function.update_of_ne hbx]
  · have hb : b ∈ l := hb
    have hbz : b ≠ z := by
      rintro rfl
      exact (List.nodup_append.mp hnd).2.2 b hb b (List.mem_singleton_self b) rfl
    have hbx : b ≠ x := by
      rintro rfl
      exact hx (List.mem_append_left _ hb)
    rw [splicePrev, Function.update_of_ne hbz, Function.update_of_ne hbx]
  · rw [List.singleton_append, List.isChain_pair]
    refine ⟨?_, ?_⟩
    · rw [spliceNext, Function.update_of_ne hpx.symm, Function.update_self]
    · rw [splicePrev, Function.update_self]
  · intro b hb c hc
    obtain rfl : x = c := by simpa using hc
    rw [List.getLast?_eq_getLast_of_ne_nil (by simp)] at hb
    obtain rfl : _ = b := Option.some.inj hb
    rw [← hp]
    refine ⟨?_, ?_⟩
    · rw [spliceNext, Function.update_self]
    · rw [splicePrev, Function.update_of_ne hzx.symm, Function.update_self]

/-- A node spliced in before any other node. -/
theorem IsRing.splice_before (h : IsRing next prev (l ++ z :: l')) (hnd : (l ++ z :: l').Nodup)
    (hx : x ∉ l ++ z :: l') :
    IsRing (spliceNext next (prev z) x z) (splicePrev prev (prev z) x z) (l ++ x :: z :: l') := by
  have hrot : l ++ z :: l' = (l ++ [z]) ++ l' := by simp
  have hrot' : l ++ x :: z :: l' = (l ++ [x, z]) ++ l' := by simp
  rw [hrot, isRing_append_comm, ← List.append_assoc] at h
  rw [hrot, List.nodup_append_comm, ← List.append_assoc] at hnd
  rw [hrot', isRing_append_comm, ← List.append_assoc]
  refine h.splice hnd fun hmem => hx ?_
  rw [hrot, List.mem_append, or_comm, ← List.mem_append, ← List.append_assoc]
  exact hmem

/-- The neighbours of `x` linked to each other. -/
def unlinkNext (next prev : N → N) (x : N) : N → N := Function.update next (prev x) (next x)

def unlinkPrev (next prev : N → N) (x : N) : N → N := Function.update prev (next x) (prev x)

theorem IsRing.unlink (h : IsRing next prev (l ++ x :: l')) (hnd : (l ++ x :: l').Nodup)
    (hne : l ++ l' ≠ []) :
    IsRing (unlinkNext next prev x) (unlinkPrev next prev x) (l ++ l') := by
  have hne' : l' ++ l ≠ [] := by
    intro hnil
    obtain ⟨rfl, rfl⟩ := List.append_eq_nil_iff.mp hnil
    exact hne rfl
  have hnd' : (l' ++ l).Nodup := by
    have hsub : (l ++ l').Sublist (l ++ x :: l') := (List.sublist_cons_self x l').append_left l
    exact List.nodup_append_comm.mp (hnd.sublist hsub)
  rw [isRing_append_comm, List.cons_append, IsRing, Cycle.chain_coe_cons] at h
  rw [isRing_append_comm, IsRing, Cycle.chain_ne_nil _ hne']
  generalize l' ++ l = m at h hne' hnd'
  obtain ⟨a, m, rfl⟩ := List.exists_cons_of_ne_nil hne'
  rw [← List.cons_append, List.isChain_append] at h
  obtain ⟨hchain, -, hlast⟩ := h
  rw [List.isChain_cons_cons] at hchain
  obtain ⟨⟨hnx, -⟩, hchain⟩ := hchain
  have hpx : prev x = (a :: m).getLast hne' := by
    have hl := hlast ((a :: m).getLast hne') (by simp [List.getLast?_eq_getLast_of_ne_nil]) x rfl
    exact hl.2
  rw [List.isChain_cons_cons]
  refine ⟨⟨?_, ?_⟩, isChain_linked_congr hchain (fun b hb => ?_) (fun b hb => ?_)⟩
  · rw [unlinkNext, hpx, hnx, Function.update_self]
  · rw [unlinkPrev, hpx, hnx, Function.update_self]
  · have hb' : b ≠ prev x := by
      rintro rfl
      rw [hpx] at hb
      rw [← List.dropLast_append_getLast hne', List.nodup_append] at hnd'
      exact hnd'.2.2 _ hb _ (List.mem_singleton_self _) rfl
    rw [unlinkNext, Function.update_of_ne hb']
  · have hb' : b ≠ next x := by
      rintro rfl
      rw [hnx] at hb
      exact (List.nodup_cons.mp hnd').1 hb
    rw [unlinkPrev, Function.update_of_ne hb']

end Splice

end Lib
