import Stm32F407.Proofs.RtosKernel

/-! The loops of the scheduler: a tick readies the delayed tasks whose time has come and
no others, and resuming the scheduler readies the tasks on the pending list. -/

namespace Stm32F407

open Lib

variable {τ ε : Type}

namespace Kernel

variable {k k' : Kernel τ ε} {t t' : τ} {l : TaskList ε} {n : U32}

structure Readies (R : τ → Prop) [DecidablePred R] (k k' : Kernel τ ε) : Prop where
  sound : Sound k'
  prio : k'.uxPriority = k.uxPriority
  delayed : k'.pxDelayedTaskList = k.pxDelayedTaskList
  overflow : k'.pxOverflowDelayedTaskList = k.pxOverflowDelayedTaskList
  value : k'.lists.xItemValue = k.lists.xItemValue
  state : ∀ t, k'.stateOf t = if R t then some (k.readyList t) else k.stateOf t
  event : ∀ t, k'.eventOf t = if R t then none else k.eventOf t

theorem Readies.trans {R S Q : τ → Prop} [DecidablePred R] [DecidablePred S] [DecidablePred Q]
    {k'' : Kernel τ ε} (h : Readies R k k') (h' : Readies S k' k'') (hQ : ∀ t, Q t ↔ R t ∨ S t) :
    Readies Q k k'' := by
  refine ⟨h'.sound, h'.prio.trans h.prio, h'.delayed.trans h.delayed, h'.overflow.trans h.overflow,
    h'.value.trans h.value, fun t => ?_, fun t => ?_⟩
  · rw [h'.state, h.state, readyList, readyList, h.prio]
    by_cases hR : R t <;> by_cases hS : S t <;> simp [hQ, hR, hS]
  · rw [h'.event, h.event]
    by_cases hR : R t <;> by_cases hS : S t <;> simp [hQ, hR, hS]

theorem Readies.none {R : τ → Prop} [DecidablePred R] (h : Sound k) (hR : ∀ t, ¬ R t)
    (hlists : k'.lists = k.lists) (hprio : k'.uxPriority = k.uxPriority)
    (htop : k'.uxTopReadyPriority = k.uxTopReadyPriority)
    (hd : k'.pxDelayedTaskList = k.pxDelayedTaskList)
    (ho : k'.pxOverflowDelayedTaskList = k.pxOverflowDelayedTaskList) : Readies R k k' := by
  refine ⟨h.of_eq hlists hprio htop hd ho, hprio, hd, ho, by rw [hlists], fun t => ?_, fun t => ?_⟩
  · rw [if_neg (hR t), stateOf, hlists]
  · rw [if_neg (hR t), eventOf, hlists]

/-- Readying tasks leaves nothing due earlier. -/
theorem Readies.inTime {R : τ → Prop} [DecidablePred R] (h : Readies R k k') (hk : Sound k)
    (htime : k.UnblockInTime) (hnext : k'.xNextTaskUnblockTime = k.xNextTaskUnblockTime) :
    k'.UnblockInTime := by
  intro t ht
  rw [timeOf, h.value, hnext]
  refine htime t ?_
  rw [h.delayed, h.state] at ht
  split_ifs at ht
  · have hl := TaskList.not_ready_of_sorted hk.delayed_sorted
    rw [← Option.some.inj ht] at hl
    cases hl
  · exact ht

/-- Either way the event item is in no list then and the state item in the ready list. -/
theorem readies_of_container [DecidableEq τ] {R : τ → Prop} [DecidablePred R] (hk : Sound k')
    (hR : ∀ t', R t' ↔ t' = t)
    (hprio : k'.uxPriority = k.uxPriority) (hd : k'.pxDelayedTaskList = k.pxDelayedTaskList)
    (ho : k'.pxOverflowDelayedTaskList = k.pxOverflowDelayedTaskList)
    (hvalue : k'.lists.xItemValue = k.lists.xItemValue)
    (hcont : k'.lists.pxContainer = Function.update (Function.update k.lists.pxContainer
      (.xEventListItem t) none) (.xStateListItem t) (some (k.readyList t))) : Readies R k k' := by
  refine ⟨hk, hprio, hd, ho, hvalue, fun t' => ?_, fun t' => ?_⟩
  · rw [stateOf, hcont]
    split_ifs with heq
    · rw [(hR t').mp heq, Function.update_self]
    · have hne : t' ≠ t := fun h => heq ((hR t').mpr h)
      rw [Function.update_of_ne (by simpa using hne), Function.update_of_ne (by simp)]
  · rw [eventOf, hcont, Function.update_of_ne (by simp)]
    split_ifs with heq
    · rw [(hR t').mp heq, Function.update_self]
    · have hne : t' ≠ t := fun h => heq ((hR t').mpr h)
      rw [Function.update_of_ne (by simpa using hne)]

def SameButLists (k k' : Kernel τ ε) : Prop :=
  k' = { k with
    lists := k'.lists, uxTopReadyPriority := k'.uxTopReadyPriority
    xNextTaskUnblockTime := k'.xNextTaskUnblockTime }

theorem SameButLists.trans {k'' : Kernel τ ε} (h : k.SameButLists k') (h' : k'.SameButLists k'') :
    k.SameButLists k'' := by
  unfold SameButLists at *
  rw [h', h]

def Due (k : Kernel τ ε) (n : U32) (t : τ) : Prop :=
  k.stateOf t = some k.pxDelayedTaskList ∧ k.timeOf t ≤ n

def Pending (k : Kernel τ ε) (t : τ) : Prop := k.eventOf t = some .xPendingReadyList

/-- The head of the pending list is the event item of a task. -/
theorem pending_head [DecidableEq ε] (h : Sound k)
    (hne : k.lists.listLIST_IS_EMPTY .xPendingReadyList = false) :
    ∃ t, k.lists.listGET_HEAD_ENTRY .xPendingReadyList = .item (.xEventListItem t) ∧ k.Pending t := by
  obtain ⟨L, hL⟩ := h.rings
  obtain ⟨i, rest, -, hhead, hi⟩ := hL.head_item (hL.atMarker _ rfl) hne
  cases i with
  | xStateListItem t => cases h.takes _ _ hi
  | xEventListItem t => exact ⟨t, hhead, hi⟩

variable [DecidableEq τ] [DecidableEq ε]

instance (k : Kernel τ ε) (n : U32) : DecidablePred (k.Due n) :=
  fun t => inferInstanceAs (Decidable (k.stateOf t = some k.pxDelayedTaskList ∧ k.timeOf t ≤ n))

instance (k : Kernel τ ε) : DecidablePred k.Pending :=
  fun t => inferInstanceAs (Decidable (k.eventOf t = some .xPendingReadyList))

@[simp] theorem removeFromEventList_eq (k : Kernel τ ε) (t : τ) :
    k.removeFromEventList t = { k with lists := (k.lists.uxListRemove (.xEventListItem t)).2 } := by
  unfold removeFromEventList
  split_ifs with ht
  · rfl
  · unfold Lists.uxListRemove
    rw [not_not.mp ht]

def release (k : Kernel τ ε) (t : τ) : Kernel τ ε :=
  ((k.listREMOVE_ITEM (.xStateListItem t)).removeFromEventList t).prvAddTaskToReadyList t

def releaseWaiting (k : Kernel τ ε) (t : τ) : Kernel τ ε :=
  ((k.listREMOVE_ITEM (.xEventListItem t)).listREMOVE_ITEM (.xStateListItem t)).prvAddTaskToReadyList t

theorem release_eq (k : Kernel τ ε) (t : τ) :
    k.release t = { k with
      lists := ((k.lists.uxListRemove (.xStateListItem t)).2.uxListRemove
        (.xEventListItem t)).2.vListInsertEnd (k.readyList t) (.xStateListItem t)
      uxTopReadyPriority := k.uxTopReadyPriority ||| BitVec.twoPow 32 (k.uxPriority t) } := by
  unfold release
  rw [removeFromEventList_eq]
  rfl

theorem release_readies (h : Sound k) (ht : k.stateOf t = some l) (hl : l.IsReady = false) :
    Readies (· = t) k (k.release t) := by
  have hremove : Sound (k.listREMOVE_ITEM (.xStateListItem t)) := h.remove ht hl
  refine readies_of_container ((hremove.removeFromEventList t).add ?_) (fun _ => Iff.rfl) ?_ ?_ ?_ ?_ ?_
  · rw [removeFromEventList_eq]
    simp only [stateOf, Lists.Holds.uxListRemove_container]
    rw [Function.update_of_ne (by simp)]
    show (k.lists.uxListRemove _).2.pxContainer _ = none
    rw [Lists.Holds.uxListRemove_container, Function.update_self]
  · rw [release_eq]
  · rw [release_eq]
  · rw [release_eq]
  · rw [release_eq]
    simp
  · rw [release_eq]
    simp only [Lists.Holds.vListInsertEnd_container, Lists.Holds.uxListRemove_container]
    rw [Function.update_comm (by simp), Function.update_idem, Function.update_comm (by simp)]

theorem releaseWaiting_readies {l' : TaskList ε} (h : Sound k) (ht : k.stateOf t = some l)
    (hl : l.IsReady = false) (he : k.eventOf t = some l') :
    Readies (· = t) k (k.releaseWaiting t) := by
  have hremove : Sound (k.listREMOVE_ITEM (.xEventListItem t)) := h.remove he (h.event_not_ready he)
  have hstate : (k.listREMOVE_ITEM (.xEventListItem t)).stateOf t = some l := by
    show (k.lists.uxListRemove _).2.pxContainer _ = _
    rw [Lists.Holds.uxListRemove_container, Function.update_of_ne (by simp)]
    exact ht
  have hremove' : Sound ((k.listREMOVE_ITEM (.xEventListItem t)).listREMOVE_ITEM (.xStateListItem t)) :=
    hremove.remove hstate hl
  refine readies_of_container (hremove'.add ?_) (fun _ => Iff.rfl) rfl rfl rfl ?_ ?_
  · show ((k.lists.uxListRemove _).2.uxListRemove _).2.pxContainer _ = none
    rw [Lists.Holds.uxListRemove_container, Function.update_self]
  · show ((k.lists.uxListRemove _).2.uxListRemove _).2.xItemValue = _
    simp
  · show Function.update ((k.lists.uxListRemove _).2.uxListRemove _).2.pxContainer _ _ = _
    rw [Lists.Holds.uxListRemove_container, Lists.Holds.uxListRemove_container, Function.update_idem]
    rfl

theorem release_count (h : Sound k) (ht : k.stateOf t = some l) (hl : l.IsReady = false)
    (he : l.IsForEvents = false) :
    (k.release t).lists.uxNumberOfItems l = k.lists.uxNumberOfItems l - 1 := by
  have hne : l ≠ k.readyList t := by
    rintro rfl
    cases hl
  have hevent : (k.lists.uxListRemove (.xStateListItem t)).2.pxContainer (.xEventListItem t) ≠ some l := by
    rw [Lists.Holds.uxListRemove_container, Function.update_of_ne (by simp)]
    intro hcont
    exact absurd (he.symm.trans (h.takes _ _ hcont)) Bool.false_ne_true
  have hadd : (k.release t).lists.uxNumberOfItems l =
      ((k.lists.uxListRemove (.xStateListItem t)).2.uxListRemove
        (.xEventListItem t)).2.uxNumberOfItems l := by
    rw [release_eq]
    exact Lists.Holds.vListInsertEnd_count_of_ne _ _ hne
  rw [hadd, Lists.Holds.uxListRemove_count_of_ne _ hevent, Lists.Holds.uxListRemove_count _ ht]
  simp only [Lists.uxListRemove, ht]

theorem release_same (k : Kernel τ ε) (t : τ) : k.SameButLists (k.release t) := by
  unfold SameButLists
  rw [release_eq]

structure Unblocks (k : Kernel τ ε) (n : U32) (xSwitchRequired : Bool) (out : Bool × Kernel τ ε) :
    Prop where
  readies : Readies (k.Due n) k out.2
  same : k.SameButLists out.2
  inTime : out.2.UnblockInTime
  switch : out.1 = true ↔
    xSwitchRequired = true ∨ ∃ t, k.Due n t ∧ k.uxPriority k.pxCurrentTCB < k.uxPriority t

theorem unblockTasks_spec (h : Sound k) (n : U32) (xSwitchRequired : Bool) {rounds : ℕ}
    (hrounds : k.lists.uxNumberOfItems k.pxDelayedTaskList < rounds) :
    Unblocks k n xSwitchRequired (k.unblockTasks n xSwitchRequired rounds) := by
  induction rounds generalizing k xSwitchRequired with
  | zero => cases hrounds
  | succ rounds ih =>
    unfold unblockTasks
    split_ifs with hempty
    · have hno : ∀ t, ¬ k.Due n t := fun t ht => h.delayed_empty hempty t ht.1
      refine ⟨Readies.none h hno rfl rfl rfl rfl rfl, rfl,
        fun t ht => absurd ht (h.delayed_empty hempty t), ?_⟩
      simp [hno]
    · obtain ⟨t, hhead, ht, hleast⟩ := h.delayed_head (Bool.not_eq_true _ ▸ hempty)
      rw [hhead]
      simp only [pvOwner]
      by_cases hlt : n < k.lists.listGET_LIST_ITEM_VALUE (.xStateListItem t)
      · -- the first of the sorted list is not due
        rw [if_pos hlt]
        have hno : ∀ t', ¬ k.Due n t' := by
          rintro t' ⟨ht', hle⟩
          exact BitVec.not_le.mpr hlt (BitVec.le_trans (hleast t' ht') hle)
        refine ⟨Readies.none h hno rfl rfl rfl rfl rfl, rfl, hleast, ?_⟩
        simp [hno]
      · rw [if_neg hlt]
        have hl := TaskList.not_ready_of_sorted h.delayed_sorted
        have hrel := release_readies h ht hl
        have hcount := release_count h ht hl h.delayed_forEvents
        have hcur : (k.release t).pxCurrentTCB = k.pxCurrentTCB := by rw [release_eq]
        have hitems : k.lists.uxNumberOfItems k.pxDelayedTaskList ≠ 0 := by
          simpa [Lists.listLIST_IS_EMPTY] using hempty
        have hdue : ∀ t', (k.release t).Due n t' ↔ t' ≠ t ∧ k.Due n t' := by
          intro t'
          have hvalue : (k.release t).timeOf t' = k.timeOf t' := by rw [timeOf, hrel.value]
          unfold Due
          rw [hrel.state, hrel.delayed, hvalue]
          by_cases heq : t' = t
          · subst heq
            have hne : k.readyList t' ≠ k.pxDelayedTaskList := by
              intro hc
              rw [← hc] at hl
              cases hl
            simp [hne]
          · simp [heq]
        have hself : k.Due n t := ⟨ht, BitVec.not_lt.mp hlt⟩
        have hrec := ih hrel.sound (xSwitchRequired ||
          ((k.release t).uxPriority (k.release t).pxCurrentTCB < (k.release t).uxPriority t))
          (by rw [hrel.delayed, hcount]; omega)
        refine ⟨hrel.trans hrec.readies fun t' => ?_, ?_, hrec.inTime, hrec.switch.trans ?_⟩
        · rw [hdue]
          by_cases heq : t' = t
          · simp [heq, hself]
          · simp [heq]
        · exact (release_same k t).trans hrec.same
        · simp only [hdue, hrel.prio, hcur, Bool.or_eq_true, decide_eq_true_eq, or_assoc]
          refine or_congr_right ⟨?_, ?_⟩
          · rintro (hgt | ⟨t', ⟨-, hd⟩, hgt⟩)
            · exact ⟨t, hself, hgt⟩
            · exact ⟨t', hd, hgt⟩
          · rintro ⟨t', hd, hgt⟩
            by_cases heq : t' = t
            · subst heq
              exact Or.inl hgt
            · exact Or.inr ⟨t', ⟨heq, hd⟩, hgt⟩

theorem releaseWaiting_count (h : Sound k) (ht : k.Pending t) :
    (k.releaseWaiting t).lists.uxNumberOfItems .xPendingReadyList =
      k.lists.uxNumberOfItems .xPendingReadyList - 1 := by
  have hstate : (k.lists.uxListRemove (.xEventListItem t)).2.pxContainer (.xStateListItem t) ≠
      some .xPendingReadyList := by
    rw [Lists.Holds.uxListRemove_container, Function.update_of_ne (by simp)]
    intro hcont
    cases h.takes _ _ hcont
  have hne : TaskList.xPendingReadyList ≠ k.readyList t := by simp [readyList]
  have hadd : (k.releaseWaiting t).lists.uxNumberOfItems .xPendingReadyList =
      ((k.lists.uxListRemove (.xEventListItem t)).2.uxListRemove
        (.xStateListItem t)).2.uxNumberOfItems .xPendingReadyList := by
    show (((k.lists.uxListRemove (.xEventListItem t)).2.uxListRemove
      (.xStateListItem t)).2.vListInsertEnd (k.readyList t) (.xStateListItem t)).uxNumberOfItems _ = _
    exact Lists.Holds.vListInsertEnd_count_of_ne _ _ hne
  rw [hadd, Lists.Holds.uxListRemove_count_of_ne _ hstate, Lists.Holds.uxListRemove_count _ ht]
  unfold Pending at ht
  simp only [Lists.uxListRemove, ht]

structure Moves (k k' : Kernel τ ε) : Prop where
  readies : Readies k.Pending k k'
  same : k' = { k with
    lists := k'.lists, uxTopReadyPriority := k'.uxTopReadyPriority
    xYieldPending := k'.xYieldPending }
  yield : k'.xYieldPending = false → k.xYieldPending = false
  switch : k'.xYieldPending = false → ∀ t, k.Pending t → k.uxPriority t < k.uxPriority k.pxCurrentTCB

theorem movePendingReady_spec (h : Sound k)
    (hstate : ∀ t, k.Pending t → ∃ l, k.stateOf t = some l ∧ l.IsReady = false) (moved : Bool)
    {rounds : ℕ} (hrounds : k.lists.uxNumberOfItems .xPendingReadyList < rounds) :
    Moves k (k.movePendingReady moved rounds).2 := by
  induction rounds generalizing k moved with
  | zero => cases hrounds
  | succ rounds ih =>
    unfold movePendingReady
    split_ifs with hempty
    · have hno : ∀ t, ¬ k.Pending t := by
        obtain ⟨L, hL⟩ := h.rings
        exact fun t => (hL.isEmpty_iff _).mp hempty _
      exact ⟨Readies.none h hno rfl rfl rfl rfl rfl, rfl, id, fun _ t ht => absurd ht (hno t)⟩
    · obtain ⟨t, hhead, ht⟩ := pending_head h (Bool.not_eq_true _ ▸ hempty)
      obtain ⟨l, hl, hr⟩ := hstate t ht
      rw [hhead]
      simp only [pvOwner]
      have hrel := releaseWaiting_readies h hl hr ht
      have hcount := releaseWaiting_count h ht
      have hitems : k.lists.uxNumberOfItems .xPendingReadyList ≠ 0 := by
        simpa [Lists.listLIST_IS_EMPTY] using hempty
      have hpending : ∀ t', (k.releaseWaiting t).Pending t' ↔ t' ≠ t ∧ k.Pending t' := by
        intro t'
        unfold Pending
        rw [hrel.event]
        by_cases heq : t' = t <;> simp [heq]
      let y := k.xYieldPending || decide (k.uxPriority k.pxCurrentTCB ≤ k.uxPriority t)
      have hrec := ih (k := { k.releaseWaiting t with xYieldPending := y })
        (hrel.sound.of_eq rfl rfl rfl rfl rfl) (fun t' ht' => ?_) true
        (show (k.releaseWaiting t).lists.uxNumberOfItems _ < rounds by omega)
      · refine ⟨?_, hrec.same, fun hy => ?_, fun hy t' ht' => ?_⟩
        · have hfirst : Readies (· = t) k { k.releaseWaiting t with xYieldPending := y } :=
            ⟨hrel.sound.of_eq rfl rfl rfl rfl rfl, hrel.prio, hrel.delayed, hrel.overflow,
              hrel.value, hrel.state, hrel.event⟩
          refine hfirst.trans hrec.readies fun t' => ?_
          show _ ↔ t' = t ∨ (k.releaseWaiting t).Pending t'
          rw [hpending]
          by_cases heq : t' = t
          · simp [heq, ht]
          · simp [heq]
        · exact (Bool.or_eq_false_iff.mp (hrec.yield hy)).1
        · by_cases heq : t' = t
          · subst heq
            have hle := of_decide_eq_false (Bool.or_eq_false_iff.mp (hrec.yield hy)).2
            exact not_le.mp hle
          · exact hrec.switch hy t' ((hpending t').mpr ⟨heq, ht'⟩)
      · obtain ⟨hne, ht''⟩ := (hpending t').mp ht'
        obtain ⟨l', hl', hr'⟩ := hstate t' ht''
        refine ⟨l', ?_, hr'⟩
        show (k.releaseWaiting t).stateOf t' = _
        rw [hrel.state, if_neg hne]
        exact hl'

end Kernel

end Stm32F407
