import Stm32F407.Proofs.RtosList
import Stm32F407.Spec.RtosSystem

/-! What holds of the kernel's lists between any two of its list operations: they are
rings, each kind of list holds its kind of items, and the bit map of the priorities says
which ready lists have a task. -/

namespace Stm32F407

open Lib

variable {τ ε : Type}

namespace TaskList

def IsReady : TaskList ε → Bool
  | .pxReadyTasksLists _ => true
  | _ => false

def IsSorted : TaskList ε → Bool
  | .xDelayedTaskList1 | .xDelayedTaskList2 | .pxEventList _ => true
  | _ => false

def IsForEvents : TaskList ε → Bool
  | .xPendingReadyList | .pxEventList _ => true
  | _ => false

def Takes (l : TaskList ε) : TaskItem τ → Bool
  | .xStateListItem _ => !l.IsForEvents
  | .xEventListItem _ => l.IsForEvents

theorem not_ready_of_sorted {l : TaskList ε} (h : l.IsSorted = true) : l.IsReady = false := by
  cases l <;> first | rfl | cases h

end TaskList

/-- The rings of the kernel; only `listGET_OWNER_OF_NEXT_ENTRY` moves an index. -/
structure Rings (m : TaskLists τ ε) (L : TaskList ε → List (ListNode (TaskList ε) (TaskItem τ))) :
    Prop extends Lists.Holds m L where
  atMarker : ∀ l, l.IsReady = false → m.pxIndex l = .xListEnd l
  sorted : ∀ l, l.IsSorted = true → Lists.Holds.SortedBy m (L l)

namespace Kernel

variable {k : Kernel τ ε} {t t' : τ} {l : TaskList ε} {m : TaskLists τ ε}

structure Sound (k : Kernel τ ε) : Prop where
  rings : ∃ L, Rings k.lists L
  takes : ∀ i l, k.lists.pxContainer i = some l → l.Takes i = true
  prio : ∀ t p, k.stateOf t = some (.pxReadyTasksLists p) → k.uxPriority t = p
  bits : ∀ p : Fin 5, k.uxTopReadyPriority.getLsbD p = true ↔
    ∃ t, k.stateOf t = some (.pxReadyTasksLists p)
  high : ∀ n, 5 ≤ n → k.uxTopReadyPriority.getLsbD n = false
  delayed : (k.pxDelayedTaskList = .xDelayedTaskList1 ∧ k.pxOverflowDelayedTaskList = .xDelayedTaskList2) ∨
    (k.pxDelayedTaskList = .xDelayedTaskList2 ∧ k.pxOverflowDelayedTaskList = .xDelayedTaskList1)

def IsTop (k : Kernel τ ε) (t : τ) : Prop :=
  k.stateOf t = some (k.readyList t) ∧
    ∀ t', k.stateOf t' = some (k.readyList t') → k.uxPriority t' ≤ k.uxPriority t

def UnblockInTime (k : Kernel τ ε) : Prop :=
  ∀ t, k.stateOf t = some k.pxDelayedTaskList → k.xNextTaskUnblockTime ≤ k.timeOf t

theorem UnblockInTime.moved {k' : Kernel τ ε} (h : k.UnblockInTime)
    (hpx : k'.pxDelayedTaskList = k.pxDelayedTaskList)
    (hnext : k'.xNextTaskUnblockTime = k.xNextTaskUnblockTime)
    (ht : k'.stateOf t ≠ some k.pxDelayedTaskList)
    (hstate : ∀ t', t' ≠ t → k'.stateOf t' = k.stateOf t')
    (htime : ∀ t', k'.timeOf t' = k.timeOf t') : k'.UnblockInTime := by
  intro t' ht'
  rw [hpx] at ht'
  have hne : t' ≠ t := by
    rintro rfl
    exact ht ht'
  rw [hnext, htime]
  exact h t' ((hstate t' hne).symm.trans ht')

namespace Sound

theorem of_eq {k' : Kernel τ ε} (h : Sound k) (hlists : k'.lists = k.lists)
    (hprio : k'.uxPriority = k.uxPriority) (htop : k'.uxTopReadyPriority = k.uxTopReadyPriority)
    (hd : k'.pxDelayedTaskList = k.pxDelayedTaskList)
    (ho : k'.pxOverflowDelayedTaskList = k.pxOverflowDelayedTaskList) : Sound k' := by
  obtain ⟨hrings, htakes, hpr, hbits, hhigh, hdelayed⟩ := h
  simp only [stateOf, ← hlists, ← hprio, ← htop] at hrings htakes hpr hbits
  rw [← htop] at hhigh
  rw [← hd, ← ho] at hdelayed
  exact ⟨hrings, htakes, hpr, hbits, hhigh, hdelayed⟩

/-- An item moved between lists that are no ready lists. -/
theorem move [DecidableEq τ] {i : TaskItem τ} {c : Option (TaskList ε)} (h : Sound k) (hm : ∃ L, Rings m L)
    (hcont : m.pxContainer = Function.update k.lists.pxContainer i c)
    (hold : ∀ p, k.lists.pxContainer i ≠ some (.pxReadyTasksLists p))
    (hnew : ∀ l, c = some l → l.Takes i = true ∧ l.IsReady = false) :
    Sound { k with lists := m } := by
  have hready : ∀ t p, m.pxContainer (.xStateListItem t) = some (.pxReadyTasksLists p) ↔
      k.stateOf t = some (.pxReadyTasksLists p) := by
    intro t p
    rw [hcont]
    by_cases hi : .xStateListItem t = i
    · subst hi
      rw [Function.update_self]
      refine ⟨fun hc => ?_, fun hk => absurd hk (hold p)⟩
      cases (hnew _ hc).2
    · rw [Function.update_of_ne hi]
  refine ⟨hm, fun j l hj => ?_, fun t p ht => h.prio t p ((hready t p).mp ht), fun p => ?_, h.high,
    h.delayed⟩
  · rw [hcont] at hj
    by_cases hi : j = i
    · subst hi
      rw [Function.update_self] at hj
      exact (hnew l hj).1
    · rw [Function.update_of_ne hi] at hj
      exact h.takes j l hj
  · simp only [stateOf, hready]
    exact h.bits p

theorem event_not_ready (h : Sound k) (ht : k.eventOf t = some l) : l.IsReady = false := by
  have htakes : l.IsForEvents = true := h.takes _ l ht
  cases l <;> first | rfl | cases htakes

/-- Resetting the bit of a list that is empty changes nothing. -/
theorem taskRESET_eq (h : Sound k) (p : Fin 5) : k.taskRESET_READY_PRIORITY p = k := by
  unfold taskRESET_READY_PRIORITY
  split_ifs with hcount
  · obtain ⟨L, hL⟩ := h.rings
    have hempty := (hL.isEmpty_iff (.pxReadyTasksLists p)).mp (decide_eq_true hcount)
    have hbit : k.uxTopReadyPriority.getLsbD p = false := by
      rw [← Bool.not_eq_true, h.bits p]
      rintro ⟨t, ht⟩
      exact hempty _ ht
    have htop : k.uxTopReadyPriority &&& ~~~BitVec.twoPow 32 p = k.uxTopReadyPriority := by
      refine BitVec.eq_of_getLsbD_eq fun n hn => ?_
      rw [BitVec.getLsbD_and, BitVec.getLsbD_not, BitVec.getLsbD_twoPow]
      by_cases hp : (p : ℕ) = n
      · rw [← hp, hbit]
        rfl
      · simp [hp, hn]
    unfold portRESET_READY_PRIORITY
    rw [htop]
  · rfl

theorem delayed_sorted (h : Sound k) : k.pxDelayedTaskList.IsSorted = true := by
  rcases h.delayed with ⟨hd, -⟩ | ⟨hd, -⟩ <;> rw [hd] <;> rfl

theorem delayed_forEvents (h : Sound k) : k.pxDelayedTaskList.IsForEvents = false := by
  rcases h.delayed with ⟨hd, -⟩ | ⟨hd, -⟩ <;> rw [hd] <;> rfl

/-- The head of the list of delayed tasks is one that wakes first. -/
theorem delayed_head [DecidableEq ε] (h : Sound k)
    (hne : k.lists.listLIST_IS_EMPTY k.pxDelayedTaskList = false) :
    ∃ t, k.lists.listGET_HEAD_ENTRY k.pxDelayedTaskList = .item (.xStateListItem t) ∧
      k.stateOf t = some k.pxDelayedTaskList ∧
      ∀ t', k.stateOf t' = some k.pxDelayedTaskList → k.timeOf t ≤ k.timeOf t' := by
  obtain ⟨L, hL⟩ := h.rings
  obtain ⟨i, rest, hrest, hhead, hi⟩ :=
    hL.head_item (hL.atMarker _ (TaskList.not_ready_of_sorted h.delayed_sorted)) hne
  cases i with
  | xEventListItem t =>
    have htakes : k.pxDelayedTaskList.IsForEvents = true := h.takes _ _ hi
    exact absurd (h.delayed_forEvents.symm.trans htakes) Bool.false_ne_true
  | xStateListItem t =>
    exact ⟨t, hhead, hi, fun t' ht' => hL.head_least hrest (hL.sorted _ h.delayed_sorted) ht'⟩

theorem delayed_empty (h : Sound k) (hempty : k.lists.listLIST_IS_EMPTY k.pxDelayedTaskList = true)
    (t : τ) : k.stateOf t ≠ some k.pxDelayedTaskList := by
  obtain ⟨L, hL⟩ := h.rings
  exact (hL.isEmpty_iff _).mp hempty _

end Sound

/-- The highest bit that is set. -/
theorem highest_spec {x : U32} (hx : x ≠ 0) :
    x.getLsbD (portGET_HIGHEST_PRIORITY x).toNat = true ∧
      ∀ n, (portGET_HIGHEST_PRIORITY x).toNat < n → x.getLsbD n = false := by
  have hlt : x.clz.toNat < 32 := BitVec.lt_def.mp (BitVec.clz_lt_iff_ne_zero.mpr hx)
  have hval : (portGET_HIGHEST_PRIORITY x).toNat = 31 - x.clz.toNat := by
    unfold portGET_HIGHEST_PRIORITY
    rw [BitVec.toNat_sub_of_le (by rw [BitVec.le_def]; exact Nat.le_of_lt_succ hlt)]
    rfl
  rw [hval]
  refine ⟨BitVec.getLsbD_true_clz_of_ne_zero (by decide) hx, fun n hn => ?_⟩
  refine Nat.testBit_lt_two_pow (lt_of_lt_of_le BitVec.toNat_lt_two_pow_sub_clz ?_)
  exact Nat.pow_le_pow_right (by decide) (by omega)

theorem reset_eq (k : Kernel τ ε) :
    k.prvResetNextTaskUnblockTime =
      { k with xNextTaskUnblockTime := k.prvResetNextTaskUnblockTime.xNextTaskUnblockTime } := by
  unfold prvResetNextTaskUnblockTime
  split_ifs <;> rfl

theorem reset_inTime [DecidableEq ε] (h : Sound k) : k.prvResetNextTaskUnblockTime.UnblockInTime := by
  intro t ht
  rw [reset_eq] at ht ⊢
  unfold prvResetNextTaskUnblockTime
  split_ifs with hempty
  · exact absurd ht (h.delayed_empty hempty t)
  · obtain ⟨t', hhead, -, hleast⟩ := h.delayed_head (Bool.not_eq_true _ ▸ hempty)
    have hle := hleast t ht
    unfold Lists.listGET_ITEM_VALUE_OF_HEAD_ENTRY
    rw [hhead]
    exact hle

theorem Sound.reset (h : Sound k) : Sound k.prvResetNextTaskUnblockTime := by
  rw [reset_eq]
  exact h.of_eq rfl rfl rfl rfl rfl

end Kernel

variable [DecidableEq τ] [DecidableEq ε]

namespace Rings

variable {m : TaskLists τ ε} {L : TaskList ε → List (ListNode (TaskList ε) (TaskItem τ))}
  {l : TaskList ε} {i : TaskItem τ}

theorem insertEnd (h : Rings m L) (hi : m.pxContainer i = none) (hl : l.IsSorted = false) :
    Rings (m.vListInsertEnd l i) (Function.update L l ((L l).dropLast ++ [.item i, m.pxIndex l])) := by
  refine ⟨h.vListInsertEnd hi l, h.atMarker, fun l' hl' => ?_⟩
  have hne : l' ≠ l := by
    rintro rfl
    exact Bool.false_ne_true (hl.symm.trans hl')
  rw [Function.update_of_ne hne]
  exact h.sorted l' hl'

theorem insert (h : Rings m L) (hi : m.pxContainer i = none) (hl : l.IsSorted = true) :
    ∃ s t, L l = s ++ t ∧ t ≠ [] ∧ (∀ a ∈ s, m.xItemValue a ≤ m.xItemValue (.item i)) ∧
      (∀ b ∈ t, b = .xListEnd l ∨ m.xItemValue (.item i) < m.xItemValue b) ∧
      Rings (m.vListInsert l i) (Function.update L l (s ++ .item i :: t)) := by
  obtain ⟨s, t, hL, hne, hs, ht, hout⟩ :=
    h.vListInsert (h.atMarker l (TaskList.not_ready_of_sorted hl)) (h.sorted l hl) hi
  refine ⟨s, t, hL, hne, hs, ht, hout, h.atMarker, fun l' hl' => ?_⟩
  by_cases hl'' : l' = l
  · subst hl''
    rw [Function.update_self]
    have hsorted := h.sorted l' hl'
    rw [hL] at hsorted
    obtain ⟨hss, htt, hst⟩ := List.pairwise_append.mp hsorted
    refine List.pairwise_append.mpr ⟨hss, List.pairwise_cons.mpr ⟨fun b hb => ?_, htt⟩,
      fun a ha b hb => ?_⟩
    · rcases ht b hb with rfl | hlt
      · exact (Lists.Holds.le_max _).trans_eq (h.last l').symm
      · exact BitVec.le_of_lt hlt
    · rcases List.mem_cons.mp hb with rfl | hb
      · exact hs a ha
      · exact hst a ha b hb
  · rw [Function.update_of_ne hl'']
    exact h.sorted l' hl'

theorem remove (h : Rings m L) (hi : m.pxContainer i = some l) :
    Rings (m.uxListRemove i).2 (Function.update L l ((L l).erase (.item i))) := by
  refine ⟨(h.uxListRemove hi).1, fun l' hl' => ?_, fun l' hl' => ?_⟩
  · exact Lists.Holds.uxListRemove_index m i (h.atMarker l' hl')
  · unfold Lists.Holds.SortedBy
    rw [Lists.Holds.uxListRemove_value]
    by_cases hl'' : l' = l
    · subst hl''
      rw [Function.update_self]
      exact (h.sorted l' hl').sublist List.erase_sublist
    · rw [Function.update_of_ne hl'']
      exact h.sorted l' hl'

theorem turn (h : Rings m L) (p : Fin 5) :
    Rings (m.listGET_OWNER_OF_NEXT_ENTRY (.pxReadyTasksLists p)).2
      (Function.update L (.pxReadyTasksLists p)
        (Lists.Holds.turn (.pxReadyTasksLists p) (L (.pxReadyTasksLists p)))) := by
  have hne : ∀ l : TaskList ε, l.IsReady = false → l ≠ .pxReadyTasksLists p := by
    rintro l hl rfl
    cases hl
  refine ⟨(h.listGET_OWNER_OF_NEXT_ENTRY _).1, fun l hl => ?_, fun l hl => ?_⟩
  · exact (Function.update_of_ne (hne l hl) _ _).trans (h.atMarker l hl)
  · rw [Function.update_of_ne (hne l (TaskList.not_ready_of_sorted hl))]
    exact h.sorted l hl

theorem set_value (h : Rings m L) (hi : m.pxContainer i = none) (v : U32) :
    Rings (m.listSET_LIST_ITEM_VALUE i v) L := by
  refine ⟨h.toHolds.set_value i v, h.atMarker, fun l hl => ?_⟩
  have hval : ∀ n ∈ L l, (m.listSET_LIST_ITEM_VALUE i v).xItemValue n = m.xItemValue n := by
    intro n hn
    refine Function.update_of_ne ?_ _ _
    rintro rfl
    exact h.not_mem_of_none hi l hn
  refine (h.sorted l hl).imp_of_mem fun ha hb hab => ?_
  rw [hval _ ha, hval _ hb]
  exact hab

end Rings

namespace Kernel

variable {k : Kernel τ ε} {t t' : τ} {l : TaskList ε} {m : TaskLists τ ε}

namespace Sound

theorem set_value {i : TaskItem τ} (h : Sound k) (hi : k.lists.pxContainer i = none) (v : U32) :
    Sound { k with lists := k.lists.listSET_LIST_ITEM_VALUE i v } := by
  obtain ⟨L, hL⟩ := h.rings
  exact ⟨⟨L, hL.set_value hi v⟩, h.takes, h.prio, h.bits, h.high, h.delayed⟩

theorem insertEnd {i : TaskItem τ} (h : Sound k) (hi : k.lists.pxContainer i = none)
    (hl : l.Takes i = true) (hr : l.IsReady = false) (hs : l.IsSorted = false) :
    Sound { k with lists := k.lists.vListInsertEnd l i } := by
  obtain ⟨L, hL⟩ := h.rings
  refine h.move (i := i) (c := some l) ⟨_, hL.insertEnd hi hs⟩ rfl (by simp [hi]) ?_
  rintro l' ⟨⟩
  exact ⟨hl, hr⟩

theorem insert {i : TaskItem τ} (h : Sound k) (hi : k.lists.pxContainer i = none)
    (hl : l.Takes i = true) (hs : l.IsSorted = true) :
    Sound { k with lists := k.lists.vListInsert l i } := by
  obtain ⟨L, hL⟩ := h.rings
  obtain ⟨_, _, _, _, _, _, hout⟩ := hL.insert hi hs
  refine h.move (i := i) (c := some l) ⟨_, hout⟩ rfl (by simp [hi]) ?_
  rintro l' ⟨⟩
  exact ⟨hl, TaskList.not_ready_of_sorted hs⟩

theorem remove {i : TaskItem τ} (h : Sound k) (hi : k.lists.pxContainer i = some l)
    (hr : l.IsReady = false) : Sound { k with lists := (k.lists.uxListRemove i).2 } := by
  obtain ⟨L, hL⟩ := h.rings
  refine h.move (i := i) (c := none) ⟨_, hL.remove hi⟩ (Lists.Holds.uxListRemove_container _ _)
    (fun p hp => ?_) (by simp)
  obtain rfl : l = _ := Option.some.inj (hi.symm.trans hp)
  cases hr

theorem removeFromEventList (h : Sound k) (t : τ) : Sound (k.removeFromEventList t) := by
  unfold Kernel.removeFromEventList
  split_ifs with ht
  · exact h.remove (Option.ne_none_iff_exists'.mp ht).choose_spec
      (h.event_not_ready (Option.ne_none_iff_exists'.mp ht).choose_spec)
  · exact h

theorem add (h : Sound k) (ht : k.stateOf t = none) : Sound (k.prvAddTaskToReadyList t) := by
  obtain ⟨L, hL⟩ := h.rings
  have hstate : ∀ t' p, (k.prvAddTaskToReadyList t).stateOf t' = some (.pxReadyTasksLists p) ↔
      (t' = t ∧ p = k.uxPriority t) ∨ k.stateOf t' = some (.pxReadyTasksLists p) := by
    intro t' p
    show Function.update k.lists.pxContainer (.xStateListItem t) (some (k.readyList t)) _ = _ ↔ _
    by_cases heq : t' = t
    · subst heq
      rw [Function.update_self, ht]
      simp [readyList, eq_comm]
    · rw [Function.update_of_ne (by simpa using heq)]
      simp [heq]
  refine ⟨⟨_, hL.insertEnd ht rfl⟩, fun i l hi => ?_, fun t' p ht' => ?_, fun p => ?_, fun n hn => ?_,
    h.delayed⟩
  · replace hi : Function.update k.lists.pxContainer (.xStateListItem t) (some (k.readyList t)) i =
      some l := hi
    by_cases heq : i = .xStateListItem t
    · subst heq
      rw [Function.update_self] at hi
      cases hi
      rfl
    · rw [Function.update_of_ne heq] at hi
      exact h.takes i l hi
  · rcases (hstate t' p).mp ht' with ⟨rfl, rfl⟩ | hk
    · rfl
    · exact h.prio t' p hk
  · simp only [hstate, exists_or]
    rw [← h.bits p]
    show (k.uxTopReadyPriority ||| BitVec.twoPow 32 (k.uxPriority t)).getLsbD p = true ↔ _
    rw [BitVec.getLsbD_or, BitVec.getLsbD_twoPow, Bool.or_eq_true, or_comm]
    refine or_congr_left ?_
    rw [Bool.and_eq_true, decide_eq_true_eq, decide_eq_true_eq]
    refine ⟨fun hp => ⟨t, rfl, Fin.ext hp.2.symm⟩, ?_⟩
    rintro ⟨_, rfl, rfl⟩
    exact ⟨by omega, rfl⟩
  · show (k.uxTopReadyPriority ||| BitVec.twoPow 32 (k.uxPriority t)).getLsbD n = false
    have hp := (k.uxPriority t).isLt
    rw [BitVec.getLsbD_or, h.high n hn, BitVec.getLsbD_twoPow]
    simp
    omega

/-- The state item of a ready task removed, and the bit reset if it was the last one. -/
theorem drop (h : Sound k) {p : Fin 5} (ht : k.stateOf t = some (.pxReadyTasksLists p)) :
    Sound { k with
      lists := (k.lists.uxListRemove (.xStateListItem t)).2
      uxTopReadyPriority :=
        if (k.lists.uxListRemove (.xStateListItem t)).1 = 0 then
          k.uxTopReadyPriority &&& ~~~BitVec.twoPow 32 p
        else k.uxTopReadyPriority } := by
  obtain ⟨L, hL⟩ := h.rings
  have hleft := hL.left_eq_zero_iff ht
  have hcont : ∀ i l, (k.lists.uxListRemove (.xStateListItem t)).2.pxContainer i = some l ↔
      i ≠ .xStateListItem t ∧ k.lists.pxContainer i = some l := by
    intro i l
    rw [Lists.Holds.uxListRemove_container]
    by_cases hi : i = .xStateListItem t
    · subst hi
      simp
    · rw [Function.update_of_ne hi]
      simp [hi]
  refine ⟨⟨_, hL.remove ht⟩, fun i l hi => h.takes i l ((hcont i l).mp hi).2,
    fun t' q ht' => h.prio t' q ((hcont _ _).mp ht').2, fun q => ?_, fun n hn => ?_, h.delayed⟩
  · simp only [stateOf, hcont]
    split_ifs with hzero
    · rw [hleft] at hzero
      rw [BitVec.getLsbD_and, BitVec.getLsbD_not, BitVec.getLsbD_twoPow]
      by_cases hq : p = q
      · subst hq
        have hp := p.isLt
        have hlt : (p : ℕ) < 32 := by omega
        simp only [hlt, decide_true, Bool.and_self, Bool.not_true, Bool.and_false]
        refine ⟨fun hf => (Bool.false_ne_true hf).elim, ?_⟩
        rintro ⟨t', hne, ht'⟩
        exact absurd ht' (hzero _ hne)
      · have hq' : ¬ (p : ℕ) = q := fun heq => hq (Fin.ext heq)
        have hlt : (q : ℕ) < 32 := by omega
        simp only [hq', hlt, decide_true, decide_false, Bool.and_false, Bool.not_false, Bool.and_true]
        rw [h.bits q]
        refine ⟨?_, fun ⟨t', _, ht'⟩ => ⟨t', ht'⟩⟩
        rintro ⟨t', ht'⟩
        refine ⟨t', ?_, ht'⟩
        rintro heq
        obtain rfl : t' = t := by simpa using heq
        rw [ht] at ht'
        cases ht'
        exact hq rfl
    · rw [h.bits q]
      refine ⟨?_, fun ⟨t', _, ht'⟩ => ⟨t', ht'⟩⟩
      rintro ⟨t', ht'⟩
      by_cases heq : t' = t
      · -- another task of the same priority is left
        subst heq
        rw [ht] at ht'
        cases ht'
        rw [hleft] at hzero
        push Not at hzero
        obtain ⟨j, hj, hj'⟩ := hzero
        cases j with
        | xStateListItem t'' => exact ⟨t'', hj, hj'⟩
        | xEventListItem t'' => cases h.event_not_ready hj'
      · exact ⟨t', by simpa using heq, ht'⟩
  · split_ifs
    · rw [BitVec.getLsbD_and, h.high n hn]
      rfl
    · exact h.high n hn

theorem removeFromStateList (h : Sound k) (ht : k.stateOf t = some l) :
    Sound (k.removeFromStateList t) := by
  by_cases hr : l.IsReady = false
  · unfold Kernel.removeFromStateList
    have hout := h.remove ht hr
    simp only
    split_ifs
    · rwa [hout.taskRESET_eq]
    · exact hout
  · cases l with
    | pxReadyTasksLists p =>
      have hdrop := h.drop ht
      have hp := h.prio t p ht
      unfold Kernel.removeFromStateList
      simp only
      split_ifs with hzero
      · rw [if_pos hzero] at hdrop
        have hcount := Lists.Holds.uxListRemove_count k.lists ht
        unfold taskRESET_READY_PRIORITY Lists.listCURRENT_LIST_LENGTH
        rw [hp, if_pos (hcount.trans hzero)]
        exact hdrop
      · rw [if_neg hzero] at hdrop
        exact hdrop
    | _ => exact absurd rfl hr

end Sound

@[simp] theorem removeFromStateList_lists (k : Kernel τ ε) (t : τ) :
    (k.removeFromStateList t).lists = (k.lists.uxListRemove (.xStateListItem t)).2 := by
  unfold Kernel.removeFromStateList taskRESET_READY_PRIORITY portRESET_READY_PRIORITY
  simp only
  split_ifs <;> rfl

/-- The task chosen is a ready task of the highest priority; only the index of its list
moves. -/
theorem select_spec (h : Sound k) (ht : k.stateOf t = some (k.readyList t)) :
    ∃ t' lists, k.taskSELECT_HIGHEST_PRIORITY_TASK =
        { k with lists := lists, pxCurrentTCB := t' } ∧ k.IsTop t' ∧
      lists = (k.lists.listGET_OWNER_OF_NEXT_ENTRY (k.readyList t')).2 ∧
      Sound { k with lists := lists, pxCurrentTCB := t' } := by
  have hne : k.uxTopReadyPriority ≠ 0 := by
    intro hzero
    have hbit := (h.bits (k.uxPriority t)).mpr ⟨t, ht⟩
    rw [hzero] at hbit
    simp at hbit
  obtain ⟨hset, hhigh⟩ := highest_spec hne
  have hlt : (portGET_HIGHEST_PRIORITY k.uxTopReadyPriority).toNat < 5 := by
    by_contra hge
    rw [h.high _ (Nat.not_lt.mp hge)] at hset
    cases hset
  obtain ⟨q, hq⟩ : ∃ q : Fin 5, (q : ℕ) = (portGET_HIGHEST_PRIORITY k.uxTopReadyPriority).toNat :=
    ⟨⟨_, hlt⟩, rfl⟩
  rw [← hq] at hset
  obtain ⟨t₀, ht₀⟩ := (h.bits q).mp hset
  obtain ⟨L, hL⟩ := h.rings
  obtain ⟨j, hj, hjq⟩ := hL.entry_item ht₀
  cases j with
  | xEventListItem t' => cases h.event_not_ready hjq
  | xStateListItem t' =>
    have hprio := h.prio t' q hjq
    have hlist : k.readyList t' = .pxReadyTasksLists q := by rw [readyList, hprio]
    have htop : k.IsTop t' := by
      refine ⟨hjq.trans (congrArg some hlist.symm), fun t'' ht'' => ?_⟩
      have hbit := (h.bits _).mpr ⟨t'', ht''⟩
      rw [hprio]
      by_contra hgt
      rw [hhigh _ (by rw [← hq]; exact not_le.mp hgt)] at hbit
      cases hbit
    refine ⟨t', _, ?_, htop, rfl, ?_⟩
    · unfold taskSELECT_HIGHEST_PRIORITY_TASK
      rw [hlist]
      simp only [hlt, dite_true]
      have hfin : (⟨(portGET_HIGHEST_PRIORITY k.uxTopReadyPriority).toNat, hlt⟩ : Fin 5) = q :=
        Fin.ext hq.symm
      rw [hfin, hj]
      rfl
    · rw [hlist]
      exact ⟨⟨_, hL.turn q⟩, h.takes, h.prio, h.bits, h.high, h.delayed⟩

end Kernel

end Stm32F407
