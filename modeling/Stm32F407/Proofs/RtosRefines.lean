import Stm32F407.Lib.Run
import Stm32F407.Lib.WrapClock
import Stm32F407.Proofs.RtosSched
import Stm32F407.Proofs.RtosTick

/-! The kernel refines the scheduler over unbounded time: what the lists, the tick count
of 32 bits and the flags of the kernel show is a state of the scheduler, and every event
takes it to the next. -/

namespace Stm32F407

open Lib Sched

variable {τ ε : Type}

namespace Kernel

variable {k k' : Kernel τ ε} {a a' : Sched τ ε} {t t' : τ} {s : TaskState ε} {now w : ℕ}
  {wake : Option ℕ}

def SleepsUntil (k : Kernel τ ε) (now : ℕ) (t : τ) : Option ℕ → Prop
  | none => k.stateOf t = some .xSuspendedTaskList
  | some w => ∃ late : Bool,
      k.stateOf t = some (if late then k.pxOverflowDelayedTaskList else k.pxDelayedTaskList) ∧
        Kept (2 ^ 32) now w (k.timeOf t).toNat late

def Shows (k : Kernel τ ε) (now : ℕ) (t : τ) : TaskState ε → Prop
  | .absent => k.stateOf t = none ∧ k.eventOf t = none
  | .ready => k.stateOf t = some (k.readyList t) ∧ k.eventOf t = none
  | .blocked e wake => k.SleepsUntil now t wake ∧ k.eventOf t = e.map .pxEventList
  | .woken wake => k.SleepsUntil now t wake ∧ k.eventOf t = some .xPendingReadyList
  | .deleted => k.stateOf t = some .xTasksWaitingTermination ∧ k.eventOf t = none

/-- What the lists show of all tasks, with the tick count and the priorities. -/
structure View (k : Kernel τ ε) (a : Sched τ ε) : Prop where
  sound : Sound k
  inTime : k.UnblockInTime
  tick : k.xTickCount = BitVec.ofNat 32 a.now
  prio : k.uxPriority = a.prio
  task : ∀ t, k.Shows a.now t (a.task t)
  value : ∀ t, a.task t ≠ .absent →
    k.lists.xItemValue (.item (.xEventListItem t)) = 5 - BitVec.ofNat 32 (a.prio t)

theorem SleepsUntil.congr (h : k.SleepsUntil now t wake) (hs : k'.stateOf t = k.stateOf t)
    (hv : k'.timeOf t = k.timeOf t) (hd : k'.pxDelayedTaskList = k.pxDelayedTaskList)
    (ho : k'.pxOverflowDelayedTaskList = k.pxOverflowDelayedTaskList) :
    k'.SleepsUntil now t wake := by
  cases wake with
  | none => exact hs.trans h
  | some w =>
    unfold SleepsUntil
    rw [hs, hv, hd, ho]
    exact h

theorem Shows.congr (h : k.Shows now t s) (hs : k'.stateOf t = k.stateOf t)
    (he : k'.eventOf t = k.eventOf t) (hv : k'.timeOf t = k.timeOf t)
    (hp : k'.uxPriority t = k.uxPriority t) (hd : k'.pxDelayedTaskList = k.pxDelayedTaskList)
    (ho : k'.pxOverflowDelayedTaskList = k.pxOverflowDelayedTaskList) : k'.Shows now t s := by
  cases s with
  | absent => exact ⟨hs.trans h.1, he.trans h.2⟩
  | ready =>
    refine ⟨hs.trans (h.1.trans ?_), he.trans h.2⟩
    rw [readyList, readyList, hp]
  | blocked e wake => exact ⟨h.1.congr hs hv hd ho, he.trans h.2⟩
  | woken wake => exact ⟨h.1.congr hs hv hd ho, he.trans h.2⟩
  | deleted => exact ⟨hs.trans h.1, he.trans h.2⟩

/-- A task that waits is in one of the lists of blocked tasks. -/
theorem SleepsUntil.state (h : k.SleepsUntil now t wake) (hk : Sound k) :
    k.stateOf t = some .xSuspendedTaskList ∨ k.stateOf t = some .xDelayedTaskList1 ∨
      k.stateOf t = some .xDelayedTaskList2 := by
  cases wake with
  | none => exact Or.inl h
  | some w =>
    obtain ⟨late, hs, -⟩ := h
    rcases hk.delayed with ⟨hd, ho⟩ | ⟨hd, ho⟩ <;> rw [hd, ho] at hs <;> cases late <;> simp [hs]

theorem SleepsUntil.not_ready (h : k.SleepsUntil now t wake) (hk : Sound k) :
    ∃ l, k.stateOf t = some l ∧ l.IsReady = false ∧ l ≠ .xTasksWaitingTermination := by
  rcases h.state hk with hs | hs | hs <;> exact ⟨_, hs, rfl, by simp⟩

/-- A ready task is in its ready list, and only ready tasks are in one. -/
theorem Shows.ready_iff (h : k.Shows now t s) (hk : Sound k) :
    s = .ready ↔ k.stateOf t = some (k.readyList t) := by
  have hsleep : ∀ {wake}, k.SleepsUntil now t wake → k.stateOf t ≠ some (k.readyList t) := by
    intro wake hw hs
    obtain ⟨l, hl, hr, -⟩ := hw.not_ready hk
    obtain rfl : l = _ := Option.some.inj (hl.symm.trans hs)
    cases hr
  cases s with
  | absent => simp [h.1]
  | ready => simp [h.1]
  | blocked e wake => simp [hsleep h.1]
  | woken wake => simp [hsleep h.1]
  | deleted => simp [h.1, readyList]

theorem Shows.absent_iff (h : k.Shows now t s) (hk : Sound k) : s = .absent ↔ k.stateOf t = none := by
  cases s with
  | absent => simp [h.1]
  | ready => simp [h.1]
  | blocked e wake =>
    obtain ⟨l, hl, -⟩ := h.1.not_ready hk
    simp [hl]
  | woken wake =>
    obtain ⟨l, hl, -⟩ := h.1.not_ready hk
    simp [hl]
  | deleted => simp [h.1]

theorem Shows.deleted_iff (h : k.Shows now t s) (hk : Sound k) :
    s = .deleted ↔ k.stateOf t = some .xTasksWaitingTermination := by
  cases s with
  | absent => simp [h.1]
  | ready => simp [h.1, readyList]
  | blocked e wake =>
    obtain ⟨l, hl, -, hne⟩ := h.1.not_ready hk
    simp [hl, hne]
  | woken wake =>
    obtain ⟨l, hl, -, hne⟩ := h.1.not_ready hk
    simp [hl, hne]
  | deleted => simp [h.1]

theorem Shows.event_iff (h : k.Shows now t s) (e : ε) :
    (∃ wake, s = .blocked (some e) wake) ↔ k.eventOf t = some (.pxEventList e) := by
  cases s with
  | absent => simp [h.2]
  | ready => simp [h.2]
  | blocked e' wake => cases e' <;> simp [h.2]
  | woken wake => simp [h.2]
  | deleted => simp [h.2]

theorem Shows.pending_iff (h : k.Shows now t s) : (∃ wake, s = .woken wake) ↔ k.Pending t := by
  unfold Pending
  cases s with
  | absent => simp [h.2]
  | ready => simp [h.2]
  | blocked e wake => cases e <;> simp [h.2]
  | woken wake => simp [h.2]
  | deleted => simp [h.2]

/-- `prvTaskIsTaskSuspended` tells the tasks that wait for nothing. -/
theorem Shows.suspended_iff [DecidableEq ε] (h : k.Shows now t s) (hk : Sound k) :
    s = .blocked none none ↔ k.prvTaskIsTaskSuspended t = true := by
  have hsome : ∀ w, k.SleepsUntil now t (some w) → k.stateOf t ≠ some .xSuspendedTaskList := by
    rintro w ⟨late, hs, -⟩ heq
    rw [hs] at heq
    rcases hk.delayed with ⟨hd, ho⟩ | ⟨hd, ho⟩ <;> rw [hd, ho] at heq <;> cases late <;> simp at heq
  unfold prvTaskIsTaskSuspended
  rw [decide_eq_true_eq]
  cases s with
  | absent => simp [h.1]
  | ready => simp [h.1, readyList]
  | blocked e wake =>
    cases wake with
    | none =>
      have hs : k.stateOf t = some .xSuspendedTaskList := h.1
      cases e <;> simp [hs, h.2]
    | some w => simp [hsome w h.1]
  | woken wake => simp [h.2]
  | deleted => simp [h.1]

def SameButFlags (k k' : Kernel τ ε) : Prop :=
  k' = { k with
    pxCurrentTCB := k'.pxCurrentTCB, uxSchedulerSuspended := k'.uxSchedulerSuspended
    xPendedTicks := k'.xPendedTicks, xYieldPending := k'.xYieldPending
    xSchedulerRunning := k'.xSchedulerRunning, uxCurrentNumberOfTasks := k'.uxCurrentNumberOfTasks
    uxDeletedTasksWaitingCleanUp := k'.uxDeletedTasksWaitingCleanUp, pendSV := k'.pendSV }

theorem View.flags (h : View k a) (hs : k.SameButFlags k') (hnow : a'.now = a.now)
    (htask : a'.task = a.task) (hprio : a'.prio = a.prio) : View k' a' := by
  have hlists : k'.lists = k.lists := by rw [hs]
  have hpr : k'.uxPriority = k.uxPriority := by rw [hs]
  have hd : k'.pxDelayedTaskList = k.pxDelayedTaskList := by rw [hs]
  have ho : k'.pxOverflowDelayedTaskList = k.pxOverflowDelayedTaskList := by rw [hs]
  have hnext : k'.xNextTaskUnblockTime = k.xNextTaskUnblockTime := by rw [hs]
  refine ⟨h.sound.of_eq hlists hpr (by rw [hs]) hd ho, fun t ht => ?_, ?_, by rw [hpr, hprio, h.prio],
    fun t => ?_, fun t ht => ?_⟩
  · rw [stateOf, hlists, hd] at ht
    rw [timeOf, hlists, hnext]
    exact h.inTime t ht
  · rw [hnow, ← h.tick, hs]
  · rw [hnow, htask]
    exact (h.task t).congr (by rw [stateOf, hlists]) (by rw [eventOf, hlists]) (by rw [timeOf, hlists])
      (by rw [hpr]) hd ho
  · rw [htask] at ht
    rw [hlists, hprio]
    exact h.value t ht

/-- Tasks readied at once. -/
theorem View.readied {R : τ → Prop} [DecidablePred R] (h : View k a) (hr : Readies R k k')
    (htime : k'.UnblockInTime) (htick : k'.xTickCount = k.xTickCount)
    (hR : ∀ t, R t → a'.task t = .ready ∧ a.task t ≠ .absent)
    (hnot : ∀ t, ¬ R t → a'.task t = a.task t) (hnow : a'.now = a.now) (hprio : a'.prio = a.prio) :
    View k' a' := by
  refine ⟨hr.sound, htime, by rw [htick, hnow, h.tick], by rw [hr.prio, hprio, h.prio], fun t => ?_,
    fun t ht => ?_⟩
  · have hstate := hr.state t
    have hevent := hr.event t
    rw [hnow]
    by_cases hd : R t
    · rw [if_pos hd] at hstate hevent
      rw [(hR t hd).1]
      refine ⟨hstate.trans ?_, hevent⟩
      rw [readyList, readyList, hr.prio]
    · rw [if_neg hd] at hstate hevent
      rw [hnot t hd]
      refine (h.task t).congr hstate hevent ?_ (by rw [hr.prio]) hr.delayed hr.overflow
      rw [timeOf, timeOf, hr.value]
  · rw [hr.value, hprio]
    refine h.value t fun habs => ?_
    by_cases hd : R t
    · exact (hR t hd).2 habs
    · exact ht ((hnot t hd).trans habs)

/-- One task moved. -/
theorem View.moved [DecidableEq τ] (h : View k a) (hk : Sound k') (htime : k'.UnblockInTime)
    (hsame : k.SameButLists k')
    (hstate : ∀ t', t' ≠ t → k'.stateOf t' = k.stateOf t')
    (hevent : ∀ t', t' ≠ t → k'.eventOf t' = k.eventOf t')
    (hvalue : ∀ n, n ≠ .item (.xStateListItem t) → k'.lists.xItemValue n = k.lists.xItemValue n)
    (ht : a.task t ≠ .absent) (hshow : k'.Shows a.now t s) : View k' (a.set t s) := by
  have htick : k'.xTickCount = k.xTickCount := by rw [hsame]
  have hprio : k'.uxPriority = k.uxPriority := by rw [hsame]
  have hd : k'.pxDelayedTaskList = k.pxDelayedTaskList := by rw [hsame]
  have ho : k'.pxOverflowDelayedTaskList = k.pxOverflowDelayedTaskList := by rw [hsame]
  refine ⟨hk, htime, htick.trans h.tick, hprio.trans h.prio, fun t' => ?_, fun t' ht' => ?_⟩
  · show k'.Shows a.now t' (Function.update a.task t s t')
    by_cases heq : t' = t
    · subst heq
      rw [Function.update_self]
      exact hshow
    · rw [Function.update_of_ne heq]
      exact (h.task t').congr (hstate t' heq) (hevent t' heq) (hvalue _ (by simpa using heq))
        (by rw [hprio]) hd ho
  · rw [hvalue _ (by simp)]
    refine h.value t' fun habs => ?_
    by_cases heq : t' = t
    · subst heq
      exact ht habs
    · exact ht' ((Function.update_of_ne heq _ _).trans habs)

theorem View.reset [DecidableEq ε] (h : View k a) : View k.prvResetNextTaskUnblockTime a := by
  have htime := reset_inTime h.sound
  have hsound := h.sound.reset
  rw [reset_eq] at htime hsound ⊢
  exact ⟨hsound, htime, h.tick, h.prio, fun t => (h.task t).congr rfl rfl rfl rfl rfl rfl, h.value⟩

def countTick (k : Kernel τ ε) : Kernel τ ε :=
  let k' := { k with xTickCount := k.xTickCount + 1 }
  if k.xTickCount + 1 = 0 then k'.taskSWITCH_DELAYED_LISTS else k'

theorem countTick_lists (k : Kernel τ ε) : k.countTick.lists = k.lists := by
  unfold countTick taskSWITCH_DELAYED_LISTS
  simp only
  split_ifs
  · rw [reset_eq]
  · rfl

def SameButTick (k k' : Kernel τ ε) : Prop :=
  k' = { k with
    lists := k'.lists, uxTopReadyPriority := k'.uxTopReadyPriority
    xNextTaskUnblockTime := k'.xNextTaskUnblockTime, xTickCount := k'.xTickCount
    pxDelayedTaskList := k'.pxDelayedTaskList
    pxOverflowDelayedTaskList := k'.pxOverflowDelayedTaskList, xNumOfOverflows := k'.xNumOfOverflows }

theorem countTick_same (k : Kernel τ ε) : k.SameButTick k.countTick := by
  unfold SameButTick countTick taskSWITCH_DELAYED_LISTS
  simp only
  split_ifs
  · rw [reset_eq]
  · rfl

theorem countTick_tick (k : Kernel τ ε) : k.countTick.xTickCount = k.xTickCount + 1 := by
  unfold countTick taskSWITCH_DELAYED_LISTS
  simp only
  split_ifs
  · rw [reset_eq]
  · rfl

theorem countTick_delayed (k : Kernel τ ε) :
    (k.countTick.pxDelayedTaskList, k.countTick.pxOverflowDelayedTaskList) =
      if k.xTickCount + 1 = 0 then (k.pxOverflowDelayedTaskList, k.pxDelayedTaskList)
      else (k.pxDelayedTaskList, k.pxOverflowDelayedTaskList) := by
  unfold countTick taskSWITCH_DELAYED_LISTS
  simp only
  split_ifs
  · rw [reset_eq]
  · rfl

theorem Sound.countTick (h : Sound k) : Sound k.countTick := by
  unfold Kernel.countTick taskSWITCH_DELAYED_LISTS
  simp only
  split_ifs
  · refine Sound.reset ⟨h.rings, h.takes, h.prio, h.bits, h.high, ?_⟩
    rcases h.delayed with ⟨hd, ho⟩ | ⟨hd, ho⟩
    · exact Or.inr ⟨ho, hd⟩
    · exact Or.inl ⟨ho, hd⟩
  · exact h.of_eq rfl rfl rfl rfl rfl

theorem tick_zero_iff (h : View k a) : k.xTickCount + 1 = 0 ↔ (a.now + 1) % 2 ^ 32 = 0 := by
  rw [h.tick, ← BitVec.toNat_inj, BitVec.toNat_add, BitVec.toNat_ofNat]
  show (a.now % 2 ^ 32 + 1) % 2 ^ 32 = 0 ↔ _
  rw [Nat.mod_add_mod]

theorem tick_toNat (h : View k a) : (k.xTickCount + 1).toNat = (a.now + 1) % 2 ^ 32 := by
  rw [h.tick, BitVec.toNat_add, BitVec.toNat_ofNat]
  show (a.now % 2 ^ 32 + 1) % 2 ^ 32 = _
  rw [Nat.mod_add_mod]

/-- A task wakes at the tick that reaches its time, in the list of this lap or, when the
count wraps, of the next. -/
theorem sleeps_tick (h : View k a) (hw : k.SleepsUntil a.now t (some w)) :
    (k.countTick.Due (k.xTickCount + 1) t ↔ w ≤ a.now + 1) ∧
      (a.now + 1 < w → k.countTick.SleepsUntil (a.now + 1) t (some w)) := by
  obtain ⟨late, hs, hkept⟩ := hw
  have hlists := k.countTick_lists
  have hpx := k.countTick_delayed
  have hne : k.pxOverflowDelayedTaskList ≠ k.pxDelayedTaskList := by
    rcases h.sound.delayed with ⟨hd, ho⟩ | ⟨hd, ho⟩ <;> simp [hd, ho]
  unfold Due SleepsUntil
  rw [stateOf, timeOf, hlists, BitVec.le_def, tick_toNat h]
  by_cases hzero : (a.now + 1) % 2 ^ 32 = 0
  · rw [if_pos ((tick_zero_iff h).mpr hzero), Prod.mk.injEq] at hpx
    rw [hpx.1, hpx.2]
    cases late with
    | false => exact absurd hzero hkept.not_wrap
    | true =>
      refine ⟨?_, fun hlt => ⟨false, hs, hkept.wrap hzero hlt⟩⟩
      rw [hzero, hkept.wrap_due_iff hzero]
      simp [stateOf] at hs
      simp [hs]
  · rw [if_neg (fun hz => hzero ((tick_zero_iff h).mp hz)), Prod.mk.injEq] at hpx
    rw [hpx.1, hpx.2]
    refine ⟨?_, fun hlt => ⟨late, hs, hkept.next hzero hlt⟩⟩
    cases late with
    | false =>
      rw [hkept.due_iff hzero]
      simp [stateOf] at hs
      simp [hs]
    | true =>
      have hlater := hkept.not_due hzero
      simp [stateOf] at hs
      simp only [hs, Option.some.injEq, hne, false_and, false_iff]
      omega

theorem countTick_inTime [DecidableEq ε] (h : View k a) : k.countTick.UnblockInTime := by
  unfold countTick taskSWITCH_DELAYED_LISTS
  simp only
  split_ifs
  · refine reset_inTime ⟨h.sound.rings, h.sound.takes, h.sound.prio, h.sound.bits, h.sound.high, ?_⟩
    rcases h.sound.delayed with ⟨hd, ho⟩ | ⟨hd, ho⟩
    · exact Or.inr ⟨ho, hd⟩
    · exact Or.inl ⟨ho, hd⟩
  · exact h.inTime

/-- The tasks due are those that the scheduler readies. -/
theorem due_iff (h : View k a) (t : τ) :
    (k.countTick.Due (k.xTickCount + 1) t ↔ (a.task t).at (a.now + 1) = .ready ∧ a.task t ≠ .ready) ∧
      (¬ k.countTick.Due (k.xTickCount + 1) t →
        (a.task t).at (a.now + 1) = a.task t ∧ k.countTick.Shows (a.now + 1) t (a.task t)) := by
  have hshow := h.task t
  have hlists := k.countTick_lists
  have hprio : k.countTick.uxPriority = k.uxPriority := by rw [k.countTick_same]
  have hdelayed := (h.sound.countTick).delayed
  have hno : ∀ l, k.stateOf t = l → l ≠ some .xDelayedTaskList1 → l ≠ some .xDelayedTaskList2 →
      ¬ k.countTick.Due (k.xTickCount + 1) t := by
    rintro l hl h1 h2 ⟨hd, -⟩
    rw [stateOf, hlists] at hd
    rcases hdelayed with ⟨hpx, -⟩ | ⟨hpx, -⟩
    · exact h1 (hl.symm.trans (hd.trans (congrArg some hpx)))
    · exact h2 (hl.symm.trans (hd.trans (congrArg some hpx)))
  unfold Shows
  rw [stateOf, eventOf, readyList, hlists, hprio]
  cases hs : a.task t with
  | absent =>
    rw [hs] at hshow
    have hnot := hno _ hshow.1 (by simp) (by simp)
    simp only [TaskState.at, hnot]
    exact ⟨by simp, fun _ => ⟨trivial, hshow⟩⟩
  | ready =>
    rw [hs] at hshow
    have hnot := hno _ hshow.1 (by simp [readyList]) (by simp [readyList])
    simp only [TaskState.at, hnot]
    exact ⟨by simp, fun _ => ⟨trivial, hshow⟩⟩
  | deleted =>
    rw [hs] at hshow
    have hnot := hno _ hshow.1 (by simp) (by simp)
    simp only [TaskState.at, hnot]
    exact ⟨by simp, fun _ => ⟨trivial, hshow⟩⟩
  | blocked e wake =>
    rw [hs] at hshow
    cases wake with
    | none =>
      have hnot := hno _ hshow.1 (by simp) (by simp)
      have hsleep : k.countTick.SleepsUntil (a.now + 1) t none := by
        unfold SleepsUntil
        rw [stateOf, hlists]
        exact hshow.1
      simp only [TaskState.at, hnot]
      exact ⟨by simp, fun _ => ⟨trivial, hsleep, hshow.2⟩⟩
    | some w =>
      obtain ⟨hdue, hkeep⟩ := sleeps_tick h hshow.1
      simp only [TaskState.at, hdue]
      split_ifs with hle
      · simp [hle]
      · simp only [hle, not_false_eq_true, forall_const]
        exact ⟨by simp, trivial, hkeep (not_le.mp hle), hshow.2⟩
  | woken wake =>
    rw [hs] at hshow
    cases wake with
    | none =>
      have hnot := hno _ hshow.1 (by simp) (by simp)
      have hsleep : k.countTick.SleepsUntil (a.now + 1) t none := by
        unfold SleepsUntil
        rw [stateOf, hlists]
        exact hshow.1
      simp only [TaskState.at, hnot]
      exact ⟨by simp, fun _ => ⟨trivial, hsleep, hshow.2⟩⟩
    | some w =>
      obtain ⟨hdue, hkeep⟩ := sleeps_tick h hshow.1
      simp only [TaskState.at, hdue]
      split_ifs with hle
      · simp [hle]
      · simp only [hle, not_false_eq_true, forall_const]
        exact ⟨by simp, trivial, hkeep (not_le.mp hle), hshow.2⟩

structure Incremented (k : Kernel τ ε) (a : Sched τ ε) (out : Bool × Kernel τ ε) : Prop where
  view : View out.2 a.advance
  same : k.SameButTick out.2
  yield : out.1 = false → k.xYieldPending = false
  switch : out.1 = false → ∀ t, a.advance.task t = .ready → a.task t ≠ .ready →
    a.prio t ≤ a.prio k.pxCurrentTCB

def SameButTicks (k k' : Kernel τ ε) : Prop :=
  k' = { k with
    lists := k'.lists, uxTopReadyPriority := k'.uxTopReadyPriority
    xNextTaskUnblockTime := k'.xNextTaskUnblockTime, xTickCount := k'.xTickCount
    pxDelayedTaskList := k'.pxDelayedTaskList
    pxOverflowDelayedTaskList := k'.pxOverflowDelayedTaskList, xNumOfOverflows := k'.xNumOfOverflows
    xYieldPending := k'.xYieldPending }

structure Caught (k : Kernel τ ε) (a : Sched τ ε) (n : ℕ) (k' : Kernel τ ε) : Prop where
  view : View k' (Sched.advance^[n] a)
  same : k.SameButTicks k'
  yield : k'.xYieldPending = false → k.xYieldPending = false
  switch : k'.xYieldPending = false → ∀ t, (Sched.advance^[n] a).task t = .ready →
    a.task t ≠ .ready → a.prio t ≤ a.prio k.pxCurrentTCB

variable [DecidableEq τ] [DecidableEq ε]

/-- What the middle of `xTaskIncrementTick` does, also when it is skipped. -/
theorem unblock_spec (h : Sound k) (htime : k.UnblockInTime) (n : U32) :
    Unblocks k n false (if k.xNextTaskUnblockTime ≤ n then
      k.unblockTasks n false (k.lists.listCURRENT_LIST_LENGTH k.pxDelayedTaskList + 1)
      else (false, k)) := by
  split_ifs with hnext
  · exact unblockTasks_spec h n false (Nat.lt_succ_self _)
  · have hno : ∀ t, ¬ k.Due n t := fun t ht =>
      hnext (BitVec.le_trans (htime t ht.1) ht.2)
    refine ⟨Readies.none h hno rfl rfl rfl rfl rfl, rfl, htime, ?_⟩
    simp [hno]

theorem increment_spec (h : View k a) (hs : k.uxSchedulerSuspended = 0) :
    Incremented k a k.xTaskIncrementTick := by
  have hspec := unblock_spec h.sound.countTick (countTick_inTime h) (k.xTickCount + 1)
  have hsame := k.countTick_same
  have htick := k.countTick_tick
  have heq : k.xTaskIncrementTick =
      (let out := if k.countTick.xNextTaskUnblockTime ≤ k.xTickCount + 1 then
          k.countTick.unblockTasks (k.xTickCount + 1) false
            (k.countTick.lists.listCURRENT_LIST_LENGTH k.countTick.pxDelayedTaskList + 1)
        else (false, k.countTick)
      (out.1 || (1 < out.2.lists.listCURRENT_LIST_LENGTH (out.2.readyList out.2.pxCurrentTCB)) ||
        out.2.xYieldPending, out.2)) := by
    unfold xTaskIncrementTick
    rw [if_pos hs]
    rfl
  rw [heq]
  generalize (if k.countTick.xNextTaskUnblockTime ≤ k.xTickCount + 1 then
    k.countTick.unblockTasks (k.xTickCount + 1) false
      (k.countTick.lists.listCURRENT_LIST_LENGTH k.countTick.pxDelayedTaskList + 1)
    else (false, k.countTick)) = out at hspec ⊢
  obtain ⟨hreadies, hsame', htime, hswitch⟩ := hspec
  have hlists := k.countTick_lists
  have hprio : k.countTick.uxPriority = k.uxPriority := by rw [hsame]
  have hcur : k.countTick.pxCurrentTCB = k.pxCurrentTCB := by rw [hsame]
  have hprio' : out.2.uxPriority = k.uxPriority := hreadies.prio.trans hprio
  have hyield' : out.2.xYieldPending = k.xYieldPending := by rw [hsame', hsame]
  have htick' : out.2.xTickCount = k.xTickCount + 1 := by rw [hsame', ← htick]
  refine ⟨⟨hreadies.sound, htime, ?_, hprio'.trans h.prio, fun t => ?_, fun t ht => ?_⟩, ?_, ?_, ?_⟩
  · rw [htick', h.tick]
    show _ + BitVec.ofNat 32 1 = _
    rw [← BitVec.ofNat_add]
    rfl
  · obtain ⟨hdue, hkeep⟩ := due_iff h t
    have hstate := hreadies.state t
    have hevent := hreadies.event t
    by_cases hd : k.countTick.Due (k.xTickCount + 1) t
    · rw [if_pos hd] at hstate hevent
      show out.2.Shows _ t ((a.task t).at (a.now + 1))
      rw [(hdue.mp hd).1]
      refine ⟨hstate.trans ?_, hevent⟩
      rw [readyList, readyList, hprio', hprio]
    · rw [if_neg hd] at hstate hevent
      show out.2.Shows _ t ((a.task t).at (a.now + 1))
      rw [(hkeep hd).1]
      refine (hkeep hd).2.congr hstate hevent ?_ (by rw [hprio', hprio]) hreadies.delayed
        hreadies.overflow
      rw [timeOf, timeOf, hreadies.value]
  · rw [hreadies.value, hlists]
    refine h.value t fun habs => ht ?_
    show (a.task t).at _ = _
    rw [habs]
    rfl
  · unfold SameButTick
    rw [hsame', hsame]
  · intro hfalse
    simp only [Bool.or_eq_false_iff] at hfalse
    rw [← hyield']
    exact hfalse.2
  · intro hfalse t hready hnot
    simp only [Bool.or_eq_false_iff] at hfalse
    by_contra hgt
    have hd := (due_iff h t).1.mpr ⟨hready, hnot⟩
    have htrue := hswitch.mpr (Or.inr ⟨t, hd, by rw [hprio, hcur, h.prio]; exact not_le.mp hgt⟩)
    rw [hfalse.1.1] at htrue
    cases htrue

theorem processPendedTicks_spec (h : View k a) (hs : k.uxSchedulerSuspended = 0) (n : ℕ) :
    Caught k a n (k.processPendedTicks n) := by
  induction n generalizing k a with
  | zero => exact ⟨h, rfl, id, fun _ t ht hnot => absurd ht hnot⟩
  | succ n ih =>
    obtain ⟨hview, hsame, hyield, hswitch⟩ := increment_spec h hs
    have hcur : k.xTaskIncrementTick.2.pxCurrentTCB = k.pxCurrentTCB := by rw [hsame]
    have hsusp : k.xTaskIncrementTick.2.uxSchedulerSuspended = k.uxSchedulerSuspended := by rw [hsame]
    have hy : k.xTaskIncrementTick.2.xYieldPending = k.xYieldPending := by rw [hsame]
    let k₁ : Kernel τ ε :=
      { k.xTaskIncrementTick.2 with
        xYieldPending := k.xTaskIncrementTick.2.xYieldPending || k.xTaskIncrementTick.1 }
    have hview₁ : View k₁ a.advance := hview.flags rfl rfl rfl rfl
    obtain ⟨hview', hsame', hyield', hswitch'⟩ := ih (k := k₁) hview₁ (hsusp.trans hs)
    have heq : k.processPendedTicks (n + 1) = k₁.processPendedTicks n := rfl
    have hboth : (k₁.processPendedTicks n).xYieldPending = false →
        k.xYieldPending = false ∧ k.xTaskIncrementTick.1 = false := by
      intro hf
      have hk₁ := Bool.or_eq_false_iff.mp (hyield' hf)
      exact ⟨hy.symm.trans hk₁.1, hk₁.2⟩
    rw [heq]
    refine ⟨by rw [Function.iterate_succ_apply]; exact hview', ?_, fun hf => (hboth hf).1,
      fun hf t ht hnot => ?_⟩
    · have hk₁ : k.SameButTicks k₁ := by
        unfold SameButTicks k₁
        rw [hsame]
      unfold SameButTicks at *
      rw [hsame', hk₁]
    · rw [Function.iterate_succ_apply] at ht
      by_cases hmid : a.advance.task t = .ready
      · exact hswitch (hboth hf).2 t hmid hnot
      · have hle := hswitch' hf t ht hmid
        rwa [show k₁.pxCurrentTCB = k.pxCurrentTCB from hcur] at hle

end Kernel

end Stm32F407
