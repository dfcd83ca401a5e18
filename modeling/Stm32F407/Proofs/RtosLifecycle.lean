import Stm32F407.Proofs.RtosEvents

/-! The events that wake, create and end tasks, and with them every event: the kernel after
it shows a state that the scheduler may take after it. -/

namespace Stm32F407

open Lib Sched

variable {τ ε : Type}

namespace Kernel

variable {k k' : Kernel τ ε} {a a' : Sched τ ε} {t t' idle : τ} {s : TaskState ε} {now : ℕ}
  {wake : Option ℕ} {e : ε} {d : U32}

def SameButSwitch (k k' : Kernel τ ε) : Prop :=
  k' = { k with
    lists := k'.lists, uxTopReadyPriority := k'.uxTopReadyPriority
    xYieldPending := k'.xYieldPending, pendSV := k'.pendSV }

theorem readied_refines [DecidableEq τ] (h : Refines idle k a) (hr : Readies (· = t) k k')
    (hsame : k.SameButSwitch k')
    (ht : a.task t ≠ .absent) (ht' : a.task t ≠ .deleted)
    (hpend : k'.pendSV = false → k.pendSV = false)
    (hswitch : k'.pendSV = false → k'.xYieldPending = false →
      k.xYieldPending = false ∧ a.prio t ≤ a.prio a.running) :
    Refines idle k' (a.set t .ready) := by
  have hnext : k'.xNextTaskUnblockTime = k.xNextTaskUnblockTime := by rw [hsame]
  have htick : k'.xTickCount = k.xTickCount := by rw [hsame]
  have hview : View k' (a.set t .ready) := by
    refine h.view.readied hr (hr.inTime h.view.sound h.view.inTime hnext) htick ?_
      (fun t' hne => set_of_ne a _ hne) rfl rfl
    rintro t' rfl
    exact ⟨set_self a t' _, ht⟩
  refine ⟨hview, by rw [hsame]; exact h.started, by rw [hsame]; exact h.running,
    by rw [hsame]; exact h.depth, by rw [hsame]; exact h.pended,
    fun hd => ⟨(h.resumed hd).1, fun t' wake => ?_⟩, ?_, ?_, ?_, fun hp hd => ?_, fun hp hy t' hready => ?_⟩
  · exact set_ne_woken (h.resumed hd).2 (by simp) t t' wake
  · exact set_ready h.idle t
  · rw [encard_set (P := fun s => s ≠ .absent) (by simp [ht]), h.tasks, hsame]
  · rw [encard_set (P := fun s => s = .deleted) (by simp [ht']), h.deleted, hsame]
  · exact set_ready (h.runs (hpend hp) hd) t
  · obtain ⟨hy', hle⟩ := hswitch hp hy
    by_cases heq : t' = t
    · rw [heq]
      exact hle
    · rw [set_of_ne a _ heq] at hready
      exact h.top (hpend hp) hy' t' hready

/-- With the scheduler suspended the event item goes to the pending list. -/
theorem woken_refines [DecidableEq τ] {wait : Option ε} (h : Refines idle k a) (hd : a.depth ≠ 0)
    (ht : a.task t = .blocked wait wake) (hsound : Sound k')
    (hcont : k'.lists.pxContainer =
      Function.update k.lists.pxContainer (.xEventListItem t) (some .xPendingReadyList))
    (hvalue : k'.lists.xItemValue = k.lists.xItemValue)
    (hsame : k' = { k with lists := k'.lists, xYieldPending := k'.xYieldPending })
    (hyield : k'.xYieldPending = false → k.xYieldPending = false) :
    Refines idle k' (a.set t (.woken wake)) := by
  have hstate : ∀ t', k'.stateOf t' = k.stateOf t' := by
    intro t'
    rw [stateOf, hcont, Function.update_of_ne (by simp)]
  have hpx : k'.pxDelayedTaskList = k.pxDelayedTaskList := by rw [hsame]
  have hpo : k'.pxOverflowDelayedTaskList = k.pxOverflowDelayedTaskList := by rw [hsame]
  have hpr : k'.uxPriority = k.uxPriority := by rw [hsame]
  have hshow := h.view.task t
  rw [ht] at hshow
  have hview : View k' (a.set t (.woken wake)) := by
    have htick : k'.xTickCount = k.xTickCount := by rw [hsame]
    refine ⟨hsound, fun t' ht' => ?_, htick.trans h.view.tick, hpr.trans h.view.prio, fun t' => ?_,
      fun t' ht' => ?_⟩
    · rw [hpx, hstate] at ht'
      rw [timeOf, hvalue, hsame]
      exact h.view.inTime t' ht'
    · show k'.Shows a.now t' ((a.set t _).task t')
      by_cases heq : t' = t
      · subst heq
        rw [set_self]
        refine ⟨hshow.1.congr (hstate t') (by rw [timeOf, timeOf, hvalue]) hpx hpo, ?_⟩
        rw [eventOf, hcont, Function.update_self]
      · rw [set_of_ne a _ heq]
        refine (h.view.task t').congr (hstate t') ?_ (by rw [timeOf, timeOf, hvalue]) (by rw [hpr]) hpx hpo
        rw [eventOf, hcont, Function.update_of_ne (by simpa using heq)]
    · rw [hvalue]
      refine h.view.value t' fun habs => ?_
      by_cases heq : t' = t
      · rw [heq, ht] at habs
        cases habs
      · rw [set_of_ne a _ heq] at ht'
        exact ht' habs
  refine ⟨hview, by rw [hsame]; exact h.started, by rw [hsame]; exact h.running,
    by rw [hsame]; exact h.depth, by rw [hsame]; exact h.pended, fun hd' => absurd hd' hd, ?_, ?_, ?_,
    fun _ hd' => absurd hd' hd, fun hp hy t' hready => ?_⟩
  · have hne : idle ≠ t := by
      rintro rfl
      cases h.idle.symm.trans ht
    exact (set_of_ne a _ hne).trans h.idle
  · rw [encard_set (P := fun s => s ≠ .absent) (by simp [ht]), h.tasks, hsame]
  · rw [encard_set (P := fun s => s = .deleted) (by simp [ht]), h.deleted, hsame]
  · rw [hsame] at hp
    exact h.top hp (hyield hy) t' (ready_of_set (by simp) hready)

/-- The head of an event list is a task that waits for the event, of the highest
priority. -/
theorem event_head [DecidableEq ε] (h : View k a) (hne : k.lists.listLIST_IS_EMPTY (.pxEventList e) = false) :
    ∃ t, k.lists.listGET_HEAD_ENTRY (.pxEventList e) = .item (.xEventListItem t) ∧
      k.eventOf t = some (.pxEventList e) ∧ a.IsFirst e t := by
  obtain ⟨L, hL⟩ := h.sound.rings
  obtain ⟨i, rest, hrest, hhead, hi⟩ := hL.head_item (hL.atMarker _ rfl) hne
  cases i with
  | xStateListItem t => cases h.sound.takes _ _ hi
  | xEventListItem t =>
    obtain ⟨wake, hw⟩ := ((h.task t).event_iff e).mpr hi
    refine ⟨t, hhead, hi, ⟨wake, hw⟩, fun t' wake' hw' => ?_⟩
    have hi' := ((h.task t').event_iff e).mp ⟨wake', hw'⟩
    have hle := hL.head_least hrest (hL.sorted _ rfl) hi'
    rw [h.value t (by simp [hw]), h.value t' (by simp [hw']), BitVec.le_def, BitVec.toNat_sub,
      BitVec.toNat_sub, BitVec.toNat_ofNat, BitVec.toNat_ofNat] at hle
    have hp := (a.prio t).isLt
    have hp' := (a.prio t').isLt
    have h5 : (5 : U32).toNat = 5 := rfl
    rw [h5] at hle
    rw [Fin.le_def]
    omega

/-- The head of the list of deleted tasks, as long as the count is not zero. -/
theorem deleted_head [DecidableEq ε] (h : Refines idle k a) (hpos : 0 < k.uxDeletedTasksWaitingCleanUp) :
    ∃ t, k.lists.listGET_HEAD_ENTRY .xTasksWaitingTermination = .item (.xStateListItem t) ∧
      a.task t = .deleted := by
  have hdeleted := h.deleted
  obtain ⟨t₀, ht₀⟩ : ∃ t, a.task t = .deleted := by
    by_contra hno
    push Not at hno
    have hempty : {t | a.task t = .deleted} = ∅ := Set.eq_empty_of_forall_notMem hno
    rw [hempty, Set.encard_empty] at hdeleted
    have hzero : (0 : ℕ) = k.uxDeletedTasksWaitingCleanUp := by exact_mod_cast hdeleted
    omega
  have hstate₀ := ((h.view.task t₀).deleted_iff h.view.sound).mp ht₀
  obtain ⟨L, hL⟩ := h.view.sound.rings
  have hne : k.lists.listLIST_IS_EMPTY .xTasksWaitingTermination = false := by
    rw [← Bool.not_eq_true, hL.isEmpty_iff]
    exact fun hno => hno _ hstate₀
  obtain ⟨i, rest, -, hhead, hi⟩ := hL.head_item (hL.atMarker _ rfl) hne
  cases i with
  | xEventListItem t => cases h.view.sound.takes _ _ hi
  | xStateListItem t => exact ⟨t, hhead, ((h.view.task t).deleted_iff h.view.sound).mpr hi⟩

/-- A task that does not run is ended or suspended. -/
theorem stopped_refines [DecidableEq τ] (h : Refines idle k a) (hruns : k.Runs) (hidle : t ≠ idle)
    (hcur : t ≠ a.running) (hs : s = .absent ∨ s = .blocked none none)
    (hview : View k' (a.set t s)) {n : ℕ}
    (hsame : k' = { k with
      lists := k'.lists, uxTopReadyPriority := k'.uxTopReadyPriority
      xNextTaskUnblockTime := k'.xNextTaskUnblockTime, uxCurrentNumberOfTasks := n })
    (htasks : {t' | (a.set t s).task t' ≠ .absent}.encard = n) (ht : a.task t ≠ .deleted) :
    Refines idle k' (a.set t s) := by
  have hrun := (ready_iff h k.pxCurrentTCB).mpr hruns
  rw [h.running] at hrun
  refine ⟨hview, by rw [hsame]; exact h.started, by rw [hsame]; exact h.running,
    by rw [hsame]; exact h.depth, by rw [hsame]; exact h.pended,
    fun hd => ⟨(h.resumed hd).1, fun t' wake => ?_⟩, (set_of_ne a _ (Ne.symm hidle)).trans h.idle, ?_, ?_,
    fun hp hd => (set_of_ne a _ (Ne.symm hcur)).trans hrun, fun hp hy t' ht' => ?_⟩
  · exact set_ne_woken (h.resumed hd).2 (by rcases hs with rfl | rfl <;> simp) t t' wake
  · rw [htasks, hsame]
  · rw [encard_set (P := fun s => s = .deleted) (by rcases hs with rfl | rfl <;> simp [ht]), h.deleted,
      hsame]
  · rw [hsame] at hp hy
    exact h.top hp hy t' (ready_of_set (by rcases hs with rfl | rfl <;> simp) ht')

/-- The running task ends or suspends itself. -/
theorem stopped_self_refines [DecidableEq τ] (h : Refines idle k a) (hidle : a.running ≠ idle)
    (hd : a.depth = 0)
    (hview : View k' (a.set a.running s)) {n : ℕ} (hs : ∀ wake, s ≠ .woken wake)
    (hsame : k' = { k with
      lists := k'.lists, uxTopReadyPriority := k'.uxTopReadyPriority
      xNextTaskUnblockTime := k'.xNextTaskUnblockTime, uxDeletedTasksWaitingCleanUp := n
      pendSV := true })
    (htasks : {t' | (a.set a.running s).task t' ≠ .absent}.encard = k.uxCurrentNumberOfTasks)
    (hdeleted : {t' | (a.set a.running s).task t' = .deleted}.encard = n) :
    Refines idle k' (a.set a.running s) := by
  have hpend : k'.pendSV = true := by rw [hsame]
  refine ⟨hview, by rw [hsame]; exact h.started, by rw [hsame]; exact h.running,
    by rw [hsame]; exact h.depth, by rw [hsame]; exact h.pended,
    fun _ => ⟨(h.resumed hd).1, set_ne_woken (h.resumed hd).2 hs _⟩,
    (set_of_ne a _ (Ne.symm hidle)).trans h.idle,
    by rw [htasks, hsame], by rw [hdeleted, hsame], fun hp => ?_, fun hp => ?_⟩
  · exact (Bool.false_ne_true (hp.symm.trans hpend)).elim
  · exact (Bool.false_ne_true (hp.symm.trans hpend)).elim

theorem vListInitialiseItem_eq [DecidableEq τ] {m : TaskLists τ ε} {i : TaskItem τ}
    (hi : m.pxContainer i = none) :
    m.vListInitialiseItem i = m := by
  unfold Lists.vListInitialiseItem
  rw [← hi, Function.update_eq_self]

theorem reset_count (k : Kernel τ ε) (n : ℕ) :
    { k with uxCurrentNumberOfTasks := n }.prvResetNextTaskUnblockTime =
      { k.prvResetNextTaskUnblockTime with uxCurrentNumberOfTasks := n } := by
  unfold prvResetNextTaskUnblockTime
  split_ifs <;> rfl

variable [DecidableEq τ] [DecidableEq ε]

theorem signal_refines (h : Refines idle k a) {xYield : Bool} (hen : k.Enabled idle (.signal e xYield)) :
    ∃ t, a.IsFirst e t ∧ Refines idle (k.next (.signal e xYield)) (a.wakeUp t) := by
  obtain ⟨t, hhead, hevent, hfirst⟩ := event_head h.view hen
  refine ⟨t, hfirst, yieldIf_refines ?_ xYield⟩
  obtain ⟨wake, hw⟩ := hfirst.1
  have hshow := h.view.task t
  rw [hw] at hshow
  have hrun := h.running
  have hprio := h.view.prio
  unfold xTaskRemoveFromEventList
  rw [hhead]
  simp only [pvOwner]
  by_cases hd : a.depth = 0
  · have hk : k.uxSchedulerSuspended = 0 := h.resumed_iff.mpr hd
    have hk' : (k.listREMOVE_ITEM (.xEventListItem t)).uxSchedulerSuspended = 0 := hk
    rw [wakeUp_of_running hw hd, if_pos hk']
    obtain ⟨l, hl, hr, -⟩ := hshow.1.not_ready h.view.sound
    have hrel := releaseWaiting_readies h.view.sound hl hr hevent
    have hraw : (k.releaseWaiting t).xYieldPending = k.xYieldPending := rfl
    show Refines idle (if (k.releaseWaiting t).uxPriority (k.releaseWaiting t).pxCurrentTCB <
      (k.releaseWaiting t).uxPriority t then (true, { k.releaseWaiting t with xYieldPending := true })
      else (false, k.releaseWaiting t)).2 _
    split_ifs with hlt
    · refine readied_refines h ⟨hrel.sound.of_eq rfl rfl rfl rfl rfl, hrel.prio, hrel.delayed,
        hrel.overflow, hrel.value, hrel.state, hrel.event⟩ rfl (by simp [hw]) (by simp [hw]) id ?_
      exact fun _ hy => (Bool.false_ne_true hy.symm).elim
    · refine readied_refines h hrel rfl (by simp [hw]) (by simp [hw]) id fun _ hy => ⟨hy, ?_⟩
      have hle := not_lt.mp hlt
      rw [hrel.prio, hprio] at hle
      rw [← hrun]
      exact hle
  · have hk : ¬ (k.listREMOVE_ITEM (.xEventListItem t)).uxSchedulerSuspended = 0 := by
      show ¬ k.uxSchedulerSuspended = 0
      exact hd ∘ h.resumed_iff.mp
    rw [wakeUp_of_suspended hw hd, if_neg hk]
    have hremove : Sound (k.listREMOVE_ITEM (.xEventListItem t)) := h.view.sound.remove hevent rfl
    have hcont : (k.listREMOVE_ITEM (.xEventListItem t)).lists.pxContainer =
        Function.update k.lists.pxContainer (.xEventListItem t) none :=
      Lists.Holds.uxListRemove_container _ _
    let k₁ : Kernel τ ε := { k.listREMOVE_ITEM (.xEventListItem t) with
      lists := (k.listREMOVE_ITEM (.xEventListItem t)).lists.vListInsertEnd .xPendingReadyList
        (.xEventListItem t) }
    have hsound : Sound k₁ := hremove.insertEnd (by rw [hcont, Function.update_self]) rfl rfl rfl
    have hcont₁ : k₁.lists.pxContainer =
        Function.update k.lists.pxContainer (.xEventListItem t) (some .xPendingReadyList) := by
      show Function.update _ _ _ = _
      rw [hcont, Function.update_idem]
    have hvalue₁ : k₁.lists.xItemValue = k.lists.xItemValue := Lists.Holds.uxListRemove_value _ _
    show Refines idle (if k₁.uxPriority k₁.pxCurrentTCB < k₁.uxPriority t then
      (true, { k₁ with xYieldPending := true }) else (false, k₁)).2 _
    split_ifs
    · exact woken_refines h hd hw (hsound.of_eq rfl rfl rfl rfl rfl) hcont₁ hvalue₁ rfl
        fun hy => (Bool.false_ne_true hy.symm).elim
    · exact woken_refines h hd hw hsound hcont₁ hvalue₁ rfl id

/-- A suspended task readied. -/
theorem release_of_suspended (hevent : k.eventOf t = none) :
    (k.listREMOVE_ITEM (.xStateListItem t)).prvAddTaskToReadyList t = k.release t := by
  unfold release
  rw [removeFromEventList_eq]
  have hnone : (k.listREMOVE_ITEM (.xStateListItem t)).lists.pxContainer (.xEventListItem t) = none := by
    show (k.lists.uxListRemove _).2.pxContainer _ = none
    rw [Lists.Holds.uxListRemove_container, Function.update_of_ne (by simp)]
    exact hevent
  have heq : ((k.listREMOVE_ITEM (.xStateListItem t)).lists.uxListRemove (.xEventListItem t)).2 =
      (k.listREMOVE_ITEM (.xStateListItem t)).lists := by
    unfold Lists.uxListRemove
    rw [hnone]
  rw [heq]

theorem resume_refines (h : Refines idle k a) :
    Refines idle (k.next (.resume t))
      (if t ≠ a.running ∧ a.task t = .blocked none none then a.set t .ready else a) := by
  show Refines idle (k.vTaskResume t) _
  unfold vTaskResume
  rw [h.running]
  by_cases hcur : t = a.running
  · simp only [hcur, ne_eq, not_true_eq_false, false_and, if_false]
    exact h
  · have hsusp := (h.view.task t).suspended_iff h.view.sound
    by_cases hst : a.task t = .blocked none none
    · have hboth : t ≠ a.running ∧ a.task t = .blocked none none := ⟨hcur, hst⟩
      rw [if_pos hcur, if_pos (hsusp.mp hst), if_pos hboth]
      have hshow := h.view.task t
      rw [hst] at hshow
      simp only [release_of_suspended hshow.2]
      have hrel := release_readies h.view.sound hshow.1 rfl
      have hsame := release_same k t
      have hcur' : (k.release t).pxCurrentTCB = a.running := by
        rw [hsame]
        exact h.running
      split_ifs with hle
      · refine readied_refines h ⟨hrel.sound.of_eq rfl rfl rfl rfl rfl, hrel.prio, hrel.delayed,
          hrel.overflow, hrel.value, hrel.state, hrel.event⟩ (by rw [release_eq]; rfl) (by simp [hst])
          (by simp [hst]) ?_ ?_
        · exact fun hp => (Bool.false_ne_true hp.symm).elim
        · exact fun hp => (Bool.false_ne_true hp.symm).elim
      · refine readied_refines h hrel (by rw [release_eq]; rfl) (by simp [hst]) (by simp [hst]) ?_ ?_
        · rw [hsame]
          exact id
        · intro _ hy
          rw [hsame] at hy
          refine ⟨hy, ?_⟩
          rw [hrel.prio, hcur', h.view.prio] at hle
          exact (not_le.mp hle).le
    · have hboth : ¬ (t ≠ a.running ∧ a.task t = .blocked none none) := fun hyes => hst hyes.2
      rw [if_pos hcur, if_neg (fun hyes => hst (hsusp.mpr hyes)), if_neg hboth]
      exact h

theorem resumeFromISR_refines (h : Refines idle k a) {xYield : Bool} :
    Refines idle (k.next (.resumeFromISR t xYield))
      (if a.task t = .blocked none none then a.wakeUp t else a) := by
  refine yieldIf_refines ?_ xYield
  unfold xTaskResumeFromISR
  have hsusp := (h.view.task t).suspended_iff h.view.sound
  by_cases hst : a.task t = .blocked none none
  · rw [if_pos (hsusp.mp hst), if_pos hst]
    have hshow := h.view.task t
    rw [hst] at hshow
    by_cases hd : a.depth = 0
    · rw [if_pos (h.resumed_iff.mpr hd), wakeUp_of_running hst hd]
      let k₁ : Kernel τ ε := { k with
        xYieldPending := k.xYieldPending || (k.uxPriority k.pxCurrentTCB ≤ k.uxPriority t : Bool) }
      show Refines idle ((k₁.listREMOVE_ITEM (.xStateListItem t)).prvAddTaskToReadyList t) _
      rw [release_of_suspended (k := k₁) hshow.2]
      have hrel := release_readies (k := k₁) (t := t)
        (h.view.sound.of_eq rfl rfl rfl rfl rfl) hshow.1 rfl
      refine readied_refines h ⟨hrel.sound, hrel.prio, hrel.delayed, hrel.overflow, hrel.value,
        hrel.state, hrel.event⟩ (by rw [release_eq]; rfl) (by simp [hst]) (by simp [hst]) ?_ ?_
      · rw [release_eq]
        exact id
      · intro _ hy
        rw [release_eq] at hy
        obtain ⟨hy₁, hy₂⟩ := Bool.or_eq_false_iff.mp hy
        refine ⟨hy₁, ?_⟩
        have hlt := not_le.mp (of_decide_eq_false hy₂)
        rw [h.view.prio, h.running] at hlt
        exact hlt.le
    · rw [if_neg (hd ∘ h.resumed_iff.mp), wakeUp_of_suspended hst hd]
      exact woken_refines h hd hst (h.view.sound.insertEnd hshow.2 rfl rfl rfl) rfl rfl rfl id
  · rw [if_neg (fun hyes => hst (hsusp.mpr hyes)), if_neg hst]
    exact h

theorem create_view (h : View k a) (ht : a.task t = .absent) (p : ℕ) :
    View ((k.prvInitialiseNewTask p t).prvAddTaskToReadyList t)
      { a.set t .ready with prio := Function.update a.prio t (clamp p) } := by
  have hshow := h.task t
  rw [ht] at hshow
  let m := k.lists.listSET_LIST_ITEM_VALUE (.xEventListItem t) (5 - BitVec.ofNat 32 (clamp p))
  have hinit : k.prvInitialiseNewTask p t =
      { k with lists := m, uxPriority := Function.update k.uxPriority t (clamp p) } := by
    unfold prvInitialiseNewTask
    simp only [vListInitialiseItem_eq hshow.1, vListInitialiseItem_eq hshow.2]
    rfl
  rw [hinit]
  have hsound : Sound { k with lists := m, uxPriority := Function.update k.uxPriority t (clamp p) } := by
    have hset : Sound { k with lists := m } := h.sound.set_value hshow.2 _
    refine ⟨hset.rings, hset.takes, fun t' q ht' => ?_, hset.bits, hset.high, hset.delayed⟩
    have hne : t' ≠ t := by
      rintro rfl
      cases hshow.1.symm.trans ht'
    exact (Function.update_of_ne hne _ _).trans (hset.prio t' q ht')
  set k₁ : Kernel τ ε :=
    { k with lists := m, uxPriority := Function.update k.uxPriority t (clamp p) } with hk₁
  have hadd := hsound.add hshow.1
  have hcont : (k₁.prvAddTaskToReadyList t).lists.pxContainer =
      Function.update k.lists.pxContainer (.xStateListItem t) (some (k₁.readyList t)) := rfl
  have hvalue : (k₁.prvAddTaskToReadyList t).lists.xItemValue =
      Function.update k.lists.xItemValue (.item (.xEventListItem t))
        (5 - BitVec.ofNat 32 (clamp p)) := rfl
  have hstate : ∀ t', t' ≠ t → (k₁.prvAddTaskToReadyList t).stateOf t' = k.stateOf t' := by
    intro t' hne
    rw [stateOf, hcont, Function.update_of_ne (by simpa using hne)]
  have htime : ∀ t', (k₁.prvAddTaskToReadyList t).timeOf t' = k.timeOf t' := by
    intro t'
    rw [timeOf, hvalue, Function.update_of_ne (by simp)]
  have hself : (k₁.prvAddTaskToReadyList t).stateOf t = some (k₁.readyList t) := by
    rw [stateOf, hcont, Function.update_self]
  refine ⟨hadd, h.inTime.moved rfl rfl (fun ht' => ?_) hstate htime, h.tick, ?_, fun t' => ?_,
    fun t' ht' => ?_⟩
  · have hl := TaskList.not_ready_of_sorted h.sound.delayed_sorted
    rw [hself] at ht'
    rw [← Option.some.inj ht'] at hl
    cases hl
  · show Function.update k.uxPriority t _ = _
    rw [h.prio]
  · show Shows _ a.now t' ((a.set t .ready).task t')
    by_cases heq : t' = t
    · subst heq
      rw [set_self]
      refine ⟨hself, ?_⟩
      rw [eventOf, hcont, Function.update_of_ne (by simp)]
      exact hshow.2
    · rw [set_of_ne a _ heq]
      refine (h.task t').congr (hstate t' heq) ?_ (htime t') (Function.update_of_ne heq _ _) rfl rfl
      rw [eventOf, hcont, Function.update_of_ne (by simp)]
  · rw [hvalue]
    by_cases heq : t' = t
    · subst heq
      rw [Function.update_self]
      show _ = 5 - BitVec.ofNat 32 (Function.update a.prio t' (clamp p) t')
      rw [Function.update_self]
    · rw [Function.update_of_ne (by simpa using heq)]
      show _ = 5 - BitVec.ofNat 32 (Function.update a.prio t (clamp p) t')
      rw [Function.update_of_ne heq]
      refine h.value t' fun habs => ht' ?_
      exact (set_of_ne a _ heq).trans habs

/-- With the scheduler running a new task does not become the current one at once. -/
theorem prvAddNewTaskToReadyList_eq (hrun : k.xSchedulerRunning = true) (t : τ) :
    k.prvAddNewTaskToReadyList t = { k.prvAddTaskToReadyList t with
      uxCurrentNumberOfTasks := k.uxCurrentNumberOfTasks + 1
      pendSV := k.pendSV || decide (k.uxPriority k.pxCurrentTCB < k.uxPriority t) } := by
  obtain ⟨lists, prio, cur, _, _, _, _, _, _, _, _, _, run, _, _, _⟩ := k
  obtain rfl : run = true := hrun
  unfold prvAddNewTaskToReadyList prvAddTaskToReadyList portRECORD_READY_PRIORITY portYIELD readyList
  by_cases hlt : prio cur < prio t <;> simp [hlt]

theorem create_refines (h : Refines idle k a) {p : ℕ} (hen : k.Enabled idle (.create t p)) :
    Refines idle (k.next (.create t p))
      { a.set t .ready with prio := Function.update a.prio t (clamp p) } := by
  obtain ⟨hruns, hnone⟩ := hen
  have ht := ((h.view.task t).absent_iff h.view.sound).mpr hnone
  have hcur := (ready_iff h k.pxCurrentTCB).mpr hruns
  rw [h.running] at hcur
  have hne : a.running ≠ t := by
    rintro rfl
    cases hcur.symm.trans ht
  have hview := create_view h.view ht p
  have hnext : k.next (.create t p) =
      { (k.prvInitialiseNewTask p t).prvAddTaskToReadyList t with
        uxCurrentNumberOfTasks := k.uxCurrentNumberOfTasks + 1
        pendSV := k.pendSV || decide (Function.update k.uxPriority t (clamp p) k.pxCurrentTCB <
          Function.update k.uxPriority t (clamp p) t) } :=
    prvAddNewTaskToReadyList_eq (k := k.prvInitialiseNewTask p t) h.started t
  rw [hnext]
  refine ⟨hview.flags rfl rfl rfl rfl, h.started, h.running, h.depth, h.pended,
    fun hd => ⟨(h.resumed hd).1, set_ne_woken (h.resumed hd).2 (by simp) t⟩, set_ready h.idle t, ?_, ?_,
    fun hp hd => ?_, fun hp hy t' ht' => ?_⟩
  · exact encard_set_add (P := fun s => s ≠ .absent) (by simp [ht]) (by simp) h.tasks
  · exact (encard_set (P := fun s => s = .deleted) (by simp [ht])).trans h.deleted
  · exact (set_of_ne a _ hne).trans hcur
  · obtain ⟨hp', hle⟩ := Bool.or_eq_false_iff.mp hp
    show Function.update a.prio t (clamp p) t' ≤ Function.update a.prio t (clamp p) a.running
    by_cases heq : t' = t
    · have hle' := not_lt.mp (of_decide_eq_false hle)
      rw [h.view.prio, h.running] at hle'
      rw [heq]
      exact hle'
    · rw [Function.update_of_ne heq, Function.update_of_ne hne]
      exact h.top hp' hy t' ((set_of_ne a _ heq).symm.trans ht')

def taken (k : Kernel τ ε) (t : τ) : Kernel τ ε := (k.removeFromStateList t).removeFromEventList t

theorem taken_same (k : Kernel τ ε) (t : τ) : k.taken t = { k with
    lists := (k.taken t).lists, uxTopReadyPriority := (k.taken t).uxTopReadyPriority } := by
  unfold taken removeFromStateList taskRESET_READY_PRIORITY portRESET_READY_PRIORITY
  rw [removeFromEventList_eq]
  simp only
  split_ifs <;> rfl

theorem taken_reset_same (k : Kernel τ ε) (t : τ) :
    k.SameButLists (k.taken t).prvResetNextTaskUnblockTime := by
  unfold SameButLists
  rw [reset_eq, taken_same]

theorem taken_container (k : Kernel τ ε) (t : τ) : (k.taken t).lists.pxContainer =
    Function.update (Function.update k.lists.pxContainer (.xStateListItem t) none)
      (.xEventListItem t) none := by
  unfold taken
  rw [removeFromEventList_eq]
  simp only [Lists.Holds.uxListRemove_container, removeFromStateList_lists]

theorem taken_state_self (k : Kernel τ ε) (t : τ) : (k.taken t).stateOf t = none := by
  rw [stateOf, taken_container, Function.update_of_ne (by simp), Function.update_self]

theorem taken_state_of_ne (k : Kernel τ ε) (h : t' ≠ t) : (k.taken t).stateOf t' = k.stateOf t' := by
  rw [stateOf, taken_container, Function.update_of_ne (by simp),
    Function.update_of_ne (by simpa using h)]

theorem taken_value (k : Kernel τ ε) (t : τ) : (k.taken t).lists.xItemValue = k.lists.xItemValue := by
  unfold taken
  rw [removeFromEventList_eq]
  simp only [Lists.Holds.uxListRemove_value, removeFromStateList_lists]

theorem taken_sound {l : TaskList ε} (h : Sound k) (ht : k.stateOf t = some l) : Sound (k.taken t) :=
  (h.removeFromStateList ht).removeFromEventList t

/-- The task put into a list of tasks that do not run, or into none. -/
theorem taken_view {c : Option (TaskList ε)} (h : View k a) (hk : Sound k')
    (hsame : k.SameButLists k') (htime : k'.UnblockInTime)
    (hcont : k'.lists.pxContainer = Function.update (k.taken t).lists.pxContainer (.xStateListItem t) c)
    (hvalue : k'.lists.xItemValue = k.lists.xItemValue) (ht : a.task t ≠ .absent)
    (hs : s = .absent ∧ c = none ∨ s = .deleted ∧ c = some .xTasksWaitingTermination ∨
      s = .blocked none none ∧ c = some .xSuspendedTaskList) : View k' (a.set t s) := by
  rw [taken_container] at hcont
  have hself : k'.stateOf t = c ∧ k'.eventOf t = none := by
    rw [stateOf, eventOf, hcont, Function.update_self, Function.update_of_ne (by simp),
      Function.update_self]
    exact ⟨rfl, rfl⟩
  refine h.moved hk htime hsame (fun t' ht' => ?_) (fun t' ht' => ?_)
    (fun n _ => congrFun hvalue n) ht ?_
  · rw [stateOf, hcont, Function.update_of_ne (by simpa using ht'), Function.update_of_ne (by simp),
      Function.update_of_ne (by simpa using ht')]
  · rw [eventOf, hcont, Function.update_of_ne (by simp), Function.update_of_ne (by simpa using ht'),
      Function.update_of_ne (by simp)]
  · obtain ⟨rfl, rfl⟩ | ⟨rfl, rfl⟩ | ⟨rfl, rfl⟩ := hs <;> exact hself

theorem vTaskDelete_eq (h : Refines idle k a) (t : τ) :
    k.vTaskDelete t = if t = a.running then
      { k.taken t with
        lists := (k.taken t).lists.vListInsertEnd .xTasksWaitingTermination (.xStateListItem t)
        uxDeletedTasksWaitingCleanUp := k.uxDeletedTasksWaitingCleanUp + 1, pendSV := true }
    else
      { (k.taken t).prvResetNextTaskUnblockTime with
        uxCurrentNumberOfTasks := k.uxCurrentNumberOfTasks - 1 } := by
  have hsame := k.taken_same t
  have hcur : (k.taken t).pxCurrentTCB = a.running := by
    rw [hsame]
    exact h.running
  have hrunning : (k.taken t).xSchedulerRunning = true := by
    rw [hsame]
    exact h.started
  have hnum : (k.taken t).uxCurrentNumberOfTasks = k.uxCurrentNumberOfTasks := by rw [hsame]
  have hdel : (k.taken t).uxDeletedTasksWaitingCleanUp = k.uxDeletedTasksWaitingCleanUp := by
    rw [hsame]
  have hdef : k.vTaskDelete t = if t = (k.taken t).pxCurrentTCB then
      (if (k.taken t).xSchedulerRunning then
        { k.taken t with
          lists := (k.taken t).lists.vListInsertEnd .xTasksWaitingTermination (.xStateListItem t)
          uxDeletedTasksWaitingCleanUp := (k.taken t).uxDeletedTasksWaitingCleanUp + 1 }.portYIELD
      else _) else
      { k.taken t with
        uxCurrentNumberOfTasks := (k.taken t).uxCurrentNumberOfTasks - 1 }.prvResetNextTaskUnblockTime := rfl
  rw [hdef, hcur, hrunning, if_pos rfl, reset_count, hnum, hdel]
  rfl

theorem delete_self_refines (h : Refines idle k a) (hruns : k.Runs) (hidle : a.running ≠ idle)
    (hd : a.depth = 0) :
    Refines idle (k.vTaskDelete a.running) (a.set a.running .deleted) := by
  have hready := (ready_iff h k.pxCurrentTCB).mpr hruns
  rw [h.running] at hready
  let k₁ : Kernel τ ε := { k.taken a.running with
    lists := (k.taken a.running).lists.vListInsertEnd .xTasksWaitingTermination
      (.xStateListItem a.running) }
  have hsame : k.SameButLists k₁ := by
    unfold SameButLists k₁
    rw [k.taken_same a.running]
  have hcont : k₁.lists.pxContainer = Function.update (k.taken a.running).lists.pxContainer
      (.xStateListItem a.running) (some .xTasksWaitingTermination) := rfl
  have hvalue : k₁.lists.xItemValue = k.lists.xItemValue := k.taken_value a.running
  have htime : k₁.UnblockInTime := by
    refine h.view.inTime.moved (by rw [hsame]) ?_ (t := a.running) ?_ (fun t' ht' => ?_)
      fun t' => congrFun hvalue _
    · show (k.taken a.running).xNextTaskUnblockTime = _
      rw [k.taken_same a.running]
    · rw [stateOf, hcont, Function.update_self]
      rcases h.view.sound.delayed with ⟨hpx, -⟩ | ⟨hpx, -⟩ <;> simp [hpx]
    · rw [stateOf, hcont, Function.update_of_ne (by simpa using ht')]
      exact taken_state_of_ne k ht'
  have hsound : Sound k₁ :=
    (taken_sound h.view.sound ((ready_iff h _).mp hready)).insertEnd (taken_state_self k a.running)
      rfl rfl rfl
  have hview : View k₁ (a.set a.running .deleted) :=
    taken_view h.view hsound hsame htime rfl hvalue (by simp [hready]) (Or.inr (Or.inl ⟨rfl, rfl⟩))
  rw [vTaskDelete_eq h, if_pos rfl]
  refine stopped_self_refines h hidle hd (hview.flags rfl rfl rfl rfl) (by simp) ?_ ?_ ?_
    (n := k.uxDeletedTasksWaitingCleanUp + 1)
  · show { k₁ with
      uxDeletedTasksWaitingCleanUp := k.uxDeletedTasksWaitingCleanUp + 1, pendSV := true } = _
    rw [hsame]
  · rw [encard_set (P := fun s => s ≠ .absent) (by simp [hready])]
    exact h.tasks
  · exact encard_set_add (P := fun s => s = .deleted) (by simp [hready]) rfl h.deleted

theorem delete_other_refines (h : Refines idle k a) (hruns : k.Runs) (hex : k.Exists t)
    (hidle : t ≠ idle) (hne : t ≠ a.running) :
    Refines idle (k.vTaskDelete t) (a.set t .absent) := by
  obtain ⟨hpresent, hnot⟩ := (exists_iff h t).mp hex
  obtain ⟨l, hl⟩ := Option.ne_none_iff_exists'.mp hex.1
  have hsound := taken_sound h.view.sound hl
  have hview : View (k.taken t).prvResetNextTaskUnblockTime (a.set t .absent) := by
    refine taken_view (c := none) h.view hsound.reset (taken_reset_same k t) (reset_inTime hsound) ?_ ?_
      hpresent (Or.inl ⟨rfl, rfl⟩)
    · rw [reset_eq, taken_container, Function.update_comm (by simp), Function.update_idem]
    · rw [reset_eq]
      exact k.taken_value t
  rw [vTaskDelete_eq h, if_neg hne]
  refine stopped_refines h hruns hidle hne (Or.inl rfl) (hview.flags rfl rfl rfl rfl) ?_ ?_ hnot
    (n := k.uxCurrentNumberOfTasks - 1)
  · rw [taken_reset_same k t]
  · exact encard_set_sub (P := fun s => s ≠ .absent) hpresent (by simp) h.tasks

theorem delete_refines (h : Refines idle k a) (hen : k.Enabled idle (.delete t)) :
    Refines idle (k.next (.delete t)) (a.set t (if t = a.running then .deleted else .absent)) := by
  obtain ⟨hruns, hex, hidle, hself⟩ := hen
  by_cases heq : t = a.running
  · rw [if_pos heq]
    subst heq
    exact delete_self_refines h hruns hidle (h.resumed_iff.mp (hself h.running.symm))
  · rw [if_neg heq]
    exact delete_other_refines h hruns hex hidle heq

theorem suspend_refines (h : Refines idle k a) (hen : k.Enabled idle (.suspend t)) :
    Refines idle (k.next (.suspend t)) (a.set t (.blocked none none)) := by
  obtain ⟨hruns, hex, hidle, hself⟩ := hen
  obtain ⟨hpresent, hnot⟩ := (exists_iff h t).mp hex
  obtain ⟨l, hl⟩ := Option.ne_none_iff_exists'.mp hex.1
  have hsound := taken_sound h.view.sound hl
  let k₁ : Kernel τ ε := { k.taken t with
    lists := (k.taken t).lists.vListInsertEnd .xSuspendedTaskList (.xStateListItem t) }
  have hsound₁ : Sound k₁ := hsound.insertEnd (taken_state_self k t) rfl rfl rfl
  have hsame₁ : k.SameButLists k₁ := by
    unfold SameButLists k₁
    rw [taken_same]
  have hsame : k.SameButLists k₁.prvResetNextTaskUnblockTime := by
    refine hsame₁.trans ?_
    unfold SameButLists
    rw [reset_eq]
  have hview : View k₁.prvResetNextTaskUnblockTime (a.set t (.blocked none none)) := by
    refine taken_view (c := some .xSuspendedTaskList) h.view hsound₁.reset hsame (reset_inTime hsound₁)
      ?_ ?_ hpresent (Or.inr (Or.inr ⟨rfl, rfl⟩))
    · rw [reset_eq]
      rfl
    · rw [reset_eq]
      exact k.taken_value t
  have hcur : k₁.prvResetNextTaskUnblockTime.pxCurrentTCB = a.running := by
    rw [hsame]
    exact h.running
  have htasks : {t' | (a.set t (.blocked none none)).task t' ≠ .absent}.encard =
      k.uxCurrentNumberOfTasks := by
    rw [encard_set (P := fun s => s ≠ .absent) (by simp [hpresent])]
    exact h.tasks
  show Refines idle (if t = k₁.prvResetNextTaskUnblockTime.pxCurrentTCB then
    k₁.prvResetNextTaskUnblockTime.portYIELD else k₁.prvResetNextTaskUnblockTime) _
  rw [hcur]
  by_cases heq : t = a.running
  · rw [if_pos heq]
    subst heq
    have hdepth : a.depth = 0 := h.resumed_iff.mp (hself h.running.symm)
    refine stopped_self_refines h hidle hdepth (hview.flags rfl rfl rfl rfl) (by simp) ?_ htasks ?_
      (n := k.uxDeletedTasksWaitingCleanUp)
    · rw [hsame]
      rfl
    · rw [encard_set (P := fun s => s = .deleted) (by simp [hnot])]
      exact h.deleted
  · rw [if_neg heq]
    refine stopped_refines h hruns hidle heq (Or.inr rfl) hview ?_ htasks hnot
    rw [hsame]

theorem cleanUp_one_refines (h : Refines idle k a) (hrun : a.task a.running = .ready)
    (ht : a.task t = .deleted) :
    Refines idle
      { k with
        lists := (k.lists.uxListRemove (.xStateListItem t)).2
        uxCurrentNumberOfTasks := k.uxCurrentNumberOfTasks - 1
        uxDeletedTasksWaitingCleanUp := k.uxDeletedTasksWaitingCleanUp - 1 } (a.set t .absent) := by
  have hshow := h.view.task t
  rw [ht] at hshow
  have hne : ∀ t', a.task t' = .ready → t' ≠ t := by
    rintro t' hready rfl
    cases hready.symm.trans ht
  let k₁ : Kernel τ ε := { k with lists := (k.lists.uxListRemove (.xStateListItem t)).2 }
  have hcont : k₁.lists.pxContainer = Function.update k.lists.pxContainer (.xStateListItem t) none :=
    Lists.Holds.uxListRemove_container _ _
  have hvalue : k₁.lists.xItemValue = k.lists.xItemValue := Lists.Holds.uxListRemove_value _ _
  have hstate : ∀ t', t' ≠ t → k₁.stateOf t' = k.stateOf t' := by
    intro t' hne'
    rw [stateOf, hcont, Function.update_of_ne (by simpa using hne')]
  have hself : k₁.stateOf t = none := by
    rw [stateOf, hcont, Function.update_self]
  have hevent : ∀ t', k₁.eventOf t' = k.eventOf t' := by
    intro t'
    rw [eventOf, hcont, Function.update_of_ne (by simp)]
  have htime : k₁.UnblockInTime :=
    h.view.inTime.moved rfl rfl (by simp [hself]) hstate fun t' => congrFun hvalue _
  have hview : View k₁ (a.set t .absent) :=
    h.view.moved (h.view.sound.remove hshow.1 rfl) htime rfl hstate (fun t' _ => hevent t')
      (fun n _ => congrFun hvalue n) (by simp [ht]) ⟨hself, (hevent t).trans hshow.2⟩
  refine ⟨hview.flags rfl rfl rfl rfl, h.started, h.running, h.depth, h.pended,
    fun hd => ⟨(h.resumed hd).1, set_ne_woken (h.resumed hd).2 (by simp) t⟩,
    (set_of_ne a _ (hne _ h.idle)).trans h.idle, ?_, ?_, fun _ _ => (set_of_ne a _ (hne _ hrun)).trans hrun,
    fun hp hy t' ht' => h.top hp hy t' (ready_of_set (by simp) ht')⟩
  · exact encard_set_sub (P := fun s => s ≠ .absent) (by simp [ht]) (by simp) h.tasks
  · exact encard_set_sub (P := fun s => s = .deleted) ht (by simp) h.deleted

theorem cleanUp_refines (h : Refines idle k a) (hen : k.Enabled idle .cleanUp) :
    ∃ a', a.Step .cleanUp a' ∧ Refines idle (k.next .cleanUp) a' := by
  have hrun := (ready_iff h k.pxCurrentTCB).mpr hen.1
  rw [h.running] at hrun
  show ∃ a', a.Step .cleanUp a' ∧ Refines idle k.prvCheckTasksWaitingTermination a'
  unfold prvCheckTasksWaitingTermination
  by_cases hpos : 0 < k.uxDeletedTasksWaitingCleanUp
  · obtain ⟨t, hhead, ht⟩ := deleted_head h hpos
    rw [if_pos hpos, hhead]
    exact ⟨a.set t .absent, Or.inl ⟨t, ht, rfl⟩, cleanUp_one_refines h hrun ht⟩
  · rw [if_neg hpos]
    refine ⟨a, Or.inr ⟨rfl, fun t ht => ?_⟩, h⟩
    have hdeleted := h.deleted
    rw [Nat.eq_zero_of_not_pos hpos, Nat.cast_zero, Set.encard_eq_zero] at hdeleted
    exact (Set.ext_iff.mp hdeleted t).mp ht

/-- Each event of the kernel is one of the scheduler. -/
theorem step_refines {ev : KernelEvent τ ε} (h : Refines idle k a) (hstep : Step idle k ev k') :
    ∃ a', a.Step ev a' ∧ Refines idle k' a' := by
  obtain ⟨hen, rfl⟩ := hstep
  cases ev with
  | tick => exact ⟨_, rfl, tick_refines h hen⟩
  | pendSV => exact pendSV_refines h
  | yield => exact ⟨_, rfl, portYIELD_refines h⟩
  | suspendAll => exact ⟨_, rfl, suspendAll_refines h hen⟩
  | resumeAll xYield => exact ⟨_, rfl, resumeAll_refines h hen⟩
  | delay d => exact ⟨_, rfl, delay_refines h hen⟩
  | wait e d => exact ⟨_, rfl, wait_refines h hen⟩
  | signal e xYield =>
    obtain ⟨t, ht, href⟩ := signal_refines h hen
    exact ⟨_, ⟨t, ht, rfl⟩, href⟩
  | create t p => exact ⟨_, rfl, create_refines h hen⟩
  | delete t => exact ⟨_, rfl, delete_refines h hen⟩
  | cleanUp => exact cleanUp_refines h hen
  | suspend t => exact ⟨_, rfl, suspend_refines h hen⟩
  | resume t => exact ⟨_, rfl, resume_refines h⟩
  | resumeFromISR t xYield => exact ⟨_, rfl, resumeFromISR_refines h⟩

end Kernel

end Stm32F407
