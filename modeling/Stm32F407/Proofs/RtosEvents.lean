import Stm32F407.Proofs.RtosRefines

/-! One lemma for each event: the kernel after it shows a state that the scheduler may
take after it. -/

namespace Stm32F407

open Lib Sched

variable {τ ε : Type}

namespace Kernel

variable {k k' : Kernel τ ε} {a a' : Sched τ ε} {t t' idle : τ} {s : TaskState ε} {now : ℕ}
  {wake : Option ℕ} {e : ε} {d : U32}

/-- The kernel `k` is in the state `a` of the scheduler. Unless a switch is pending the
running task is ready and has the highest priority. -/
structure Refines (idle : τ) (k : Kernel τ ε) (a : Sched τ ε) : Prop where
  view : View k a
  started : k.xSchedulerRunning = true
  running : k.pxCurrentTCB = a.running
  depth : k.uxSchedulerSuspended.toNat = a.depth
  pended : k.xPendedTicks.toNat = a.pended
  resumed : a.depth = 0 → a.pended = 0 ∧ ∀ t wake, a.task t ≠ .woken wake
  idle : a.task idle = .ready
  tasks : {t | a.task t ≠ .absent}.encard = k.uxCurrentNumberOfTasks
  deleted : {t | a.task t = .deleted}.encard = k.uxDeletedTasksWaitingCleanUp
  runs : k.pendSV = false → a.depth = 0 → a.task a.running = .ready
  top : k.pendSV = false → k.xYieldPending = false →
    ∀ t, a.task t = .ready → a.prio t ≤ a.prio a.running

theorem Refines.resumed_iff (h : Refines idle k a) : k.uxSchedulerSuspended = 0 ↔ a.depth = 0 := by
  rw [← h.depth, ← BitVec.toNat_inj]
  rfl

theorem Refines.tasks_pos (h : Refines idle k a) : 0 < k.uxCurrentNumberOfTasks := by
  by_contra hzero
  have htasks := h.tasks
  rw [Nat.eq_zero_of_not_pos hzero, Nat.cast_zero, Set.encard_eq_zero] at htasks
  have hidle : idle ∈ {t | a.task t ≠ .absent} := by simp [h.idle]
  rw [htasks] at hidle
  exact hidle

theorem ready_iff (h : Refines idle k a) (t : τ) :
    a.task t = .ready ↔ k.stateOf t = some (k.readyList t) :=
  (h.view.task t).ready_iff h.view.sound

theorem isTop_iff (h : Refines idle k a) (t : τ) : k.IsTop t ↔ a.IsTop t := by
  unfold IsTop Sched.IsTop
  simp only [ready_iff h, ← h.view.prio]

theorem exists_iff (h : Refines idle k a) (t : τ) :
    k.Exists t ↔ a.task t ≠ .absent ∧ a.task t ≠ .deleted := by
  rw [ne_eq, ne_eq, (h.view.task t).absent_iff h.view.sound, (h.view.task t).deleted_iff h.view.sound]
  rfl

theorem portYIELD_ite (k : Kernel τ ε) (xYield : Bool) :
    (if xYield then k.portYIELD else k) = { k with pendSV := xYield || k.pendSV } := by
  cases xYield <;> rfl

/-- A switch requested. -/
theorem portYIELD_refines (h : Refines idle k a) : Refines idle k.portYIELD a :=
  ⟨h.view.flags rfl rfl rfl rfl, h.started, h.running, h.depth, h.pended, h.resumed, h.idle, h.tasks,
    h.deleted, fun hp => (Bool.false_ne_true hp.symm).elim,
    fun hp => (Bool.false_ne_true hp.symm).elim⟩

theorem yieldIf_refines {out : Bool × Kernel τ ε} (h : Refines idle out.2 a) (xYield : Bool) :
    Refines idle (yieldIf xYield out) a := by
  unfold yieldIf
  split_ifs
  · exact portYIELD_refines h
  · exact h

/-- The running task blocked, with the scheduler suspended. -/
theorem blocked_refines [DecidableEq τ] {wait : Option ε} (h : Refines idle k a) (hruns : k.Runs)
    (hsusp : 0 < k.uxSchedulerSuspended) (hidle : k.pxCurrentTCB ≠ idle)
    (hview : View k' (a.set a.running (.blocked wait wake))) (hsame : k.SameButLists k') :
    Refines idle k' (a.set a.running (.blocked wait wake)) := by
  have hcur := (ready_iff h k.pxCurrentTCB).mpr hruns
  rw [h.running] at hcur hidle
  have hdepth : ¬ a.depth = 0 := by
    rw [← h.depth]
    exact Nat.ne_of_gt (BitVec.lt_def.mp hsusp)
  refine ⟨hview, by rw [hsame]; exact h.started, by rw [hsame]; exact h.running,
    by rw [hsame]; exact h.depth, by rw [hsame]; exact h.pended, fun hd => absurd hd hdepth,
    (set_of_ne a _ (Ne.symm hidle)).trans h.idle, ?_, ?_, fun _ hd => absurd hd hdepth,
    fun hp hy t ht => ?_⟩
  · rw [encard_set (P := fun s => s ≠ .absent) (by simp [hcur]), h.tasks, hsame]
  · rw [encard_set (P := fun s => s = .deleted) (by simp [hcur]), h.deleted, hsame]
  · rw [hsame] at hp hy
    exact h.top hp hy t (ready_of_set (by simp) ht)

/-- With the scheduler suspended a tick is held back. -/
theorem tick_held_refines (h : Refines idle k a) (hen : k.Enabled idle .tick) (hd : a.depth ≠ 0) :
    Refines idle { k with xPendedTicks := k.xPendedTicks + 1 } { a with pended := a.pended + 1 } := by
  refine ⟨h.view.flags rfl rfl rfl rfl, h.started, h.running, h.depth, ?_, fun hd' => absurd hd' hd,
    h.idle, h.tasks, h.deleted, h.runs, h.top⟩
  have hmax : portMAX_DELAY.toNat = 2 ^ 32 - 1 := rfl
  have hne : k.xPendedTicks.toNat ≠ 2 ^ 32 - 1 := fun heq =>
    hen (hd ∘ h.resumed_iff.mp) (BitVec.eq_of_toNat_eq heq)
  have hle := k.xPendedTicks.isLt
  have hone : (1 : U32).toNat = 1 := rfl
  rw [BitVec.toNat_add, ← h.pended, hone]
  exact Nat.mod_eq_of_lt (by omega)

variable [DecidableEq τ] [DecidableEq ε]

theorem tick_refines (h : Refines idle k a) (hen : k.Enabled idle .tick) :
    Refines idle (k.next .tick) a.tick := by
  show Refines idle k.xPortSysTickHandler _
  unfold Sched.tick xPortSysTickHandler
  by_cases hdepth : a.depth = 0
  · obtain ⟨hview, hsame, hyield, hswitch⟩ := increment_spec h.view (h.resumed_iff.mpr hdepth)
    rw [if_pos hdepth]
    generalize k.xTaskIncrementTick = out at hview hsame hyield hswitch ⊢
    obtain ⟨sw, k₁⟩ := out
    simp only at hview hsame hyield hswitch ⊢
    have hpend : k₁.pendSV = k.pendSV := by rw [hsame]
    have htask : ∀ t, a.advance.task t = (a.task t).at (a.now + 1) := fun _ => rfl
    rw [portYIELD_ite, hpend]
    refine ⟨hview.flags rfl rfl rfl rfl, ?_, ?_, ?_, ?_,
      fun hd => ⟨(h.resumed hd).1, fun t wake => ?_⟩, ?_, ?_, ?_,
      fun hp hd => ?_, fun hp hy t ht => ?_⟩
    · rw [hsame]
      exact h.started
    · rw [hsame]
      exact h.running
    · rw [hsame]
      exact h.depth
    · rw [hsame]
      exact h.pended
    · exact at_ne_woken _ _ (fun wake => (h.resumed hd).2 t wake) wake
    · rw [htask, h.idle]
      rfl
    · simp only [htask, ne_eq, at_absent_iff]
      rw [hsame]
      exact h.tasks
    · simp only [htask, at_deleted_iff]
      rw [hsame]
      exact h.deleted
    · have hrun := h.runs (Bool.or_eq_false_iff.mp hp).2 hd
      show (a.task a.running).at _ = _
      rw [hrun]
      rfl
    · obtain ⟨hsw, hpend⟩ := Bool.or_eq_false_iff.mp hp
      by_cases hready : a.task t = .ready
      · exact h.top hpend (hyield hsw) t hready
      · have hle := hswitch hsw t ht hready
        rwa [h.running] at hle
  · have hk : k.uxSchedulerSuspended ≠ 0 := hdepth ∘ h.resumed_iff.mp
    have hincr : k.xTaskIncrementTick = (false, { k with xPendedTicks := k.xPendedTicks + 1 }) := by
      unfold xTaskIncrementTick
      rw [if_neg hk]
    rw [if_neg hdepth, hincr]
    exact tick_held_refines h hen hdepth

theorem pendSV_refines (h : Refines idle k a) :
    ∃ a', a.Step .pendSV a' ∧ Refines idle (k.next .pendSV) a' := by
  show ∃ a', (if a.depth = 0 then ∃ t, a.IsTop t ∧ a' = { a with running := t } else a' = a) ∧
    Refines idle k.xPortPendSVHandler a'
  unfold xPortPendSVHandler vTaskSwitchContext
  by_cases hd : a.depth = 0
  · simp only [if_pos hd]
    have hk : ¬ k.uxSchedulerSuspended ≠ 0 := not_not.mpr (h.resumed_iff.mpr hd)
    rw [if_neg hk]
    let k₀ : Kernel τ ε := { k with pendSV := false, xYieldPending := false }
    obtain ⟨t, lists, heq, htop, hlists, hsound⟩ := select_spec (k := k₀) (t := idle)
      (h.view.sound.of_eq rfl rfl rfl rfl rfl) ((ready_iff h idle).mp h.idle)
    have htop' : a.IsTop t := (isTop_iff h t).mp htop
    refine ⟨{ a with running := t }, ⟨t, htop', rfl⟩, ?_⟩
    show Refines idle k₀.taskSELECT_HIGHEST_PRIORITY_TASK _
    rw [heq]
    subst hlists
    have hview : View { k₀ with
        lists := (k₀.lists.listGET_OWNER_OF_NEXT_ENTRY (k₀.readyList t)).2, pxCurrentTCB := t }
        { a with running := t } :=
      ⟨hsound, h.view.inTime, h.view.tick, h.view.prio,
        fun t' => (h.view.task t').congr rfl rfl rfl rfl rfl rfl, h.view.value⟩
    exact ⟨hview, h.started, rfl, h.depth, h.pended, h.resumed, h.idle, h.tasks, h.deleted,
      fun _ _ => htop'.1, fun _ _ => htop'.2⟩
  · simp only [if_neg hd, exists_eq_left]
    have hk : k.uxSchedulerSuspended ≠ 0 := hd ∘ h.resumed_iff.mp
    rw [if_pos hk]
    exact ⟨h.view.flags rfl rfl rfl rfl, h.started, h.running, h.depth, h.pended, h.resumed, h.idle,
      h.tasks, h.deleted, fun _ hd' => absurd hd' hd, fun _ hy => (Bool.false_ne_true hy.symm).elim⟩

theorem suspendAll_refines (h : Refines idle k a) (hen : k.Enabled idle .suspendAll) :
    Refines idle (k.next .suspendAll) { a with depth := a.depth + 1 } := by
  refine ⟨h.view.flags rfl rfl rfl rfl, h.started, h.running, ?_, h.pended,
    fun hd => absurd hd (Nat.succ_ne_zero _), h.idle, h.tasks, h.deleted,
    fun _ hd => absurd hd (Nat.succ_ne_zero _), h.top⟩
  show (k.uxSchedulerSuspended + 1).toNat = a.depth + 1
  rw [BitVec.toNat_add, ← h.depth]
  exact Nat.mod_eq_of_lt hen.2

/-- `xTaskResumeAll` up to the ticks, when the scheduler is no longer suspended. -/
def movedReady (k : Kernel τ ε) : Kernel τ ε :=
  let k := { k with uxSchedulerSuspended := k.uxSchedulerSuspended - 1 }
  let out := k.movePendingReady false (k.lists.listCURRENT_LIST_LENGTH .xPendingReadyList + 1)
  if out.1 then out.2.prvResetNextTaskUnblockTime else out.2

/-- `xTaskResumeAll` up to the yield. -/
def caughtUp (k : Kernel τ ε) : Kernel τ ε :=
  { k.movedReady.processPendedTicks k.movedReady.xPendedTicks.toNat with xPendedTicks := 0 }

theorem next_resumeAll_eq (hs : k.uxSchedulerSuspended - 1 = 0) (hn : 0 < k.uxCurrentNumberOfTasks)
    (xYield : Bool) :
    k.next (.resumeAll xYield) =
      { k.caughtUp with pendSV := k.caughtUp.xYieldPending || xYield || k.caughtUp.pendSV } := by
  have heq : k.xTaskResumeAll = if k.uxSchedulerSuspended - 1 = 0 then
      if 0 < k.uxCurrentNumberOfTasks then
        if k.caughtUp.xYieldPending then (true, k.caughtUp.portYIELD) else (false, k.caughtUp)
      else (false, { k with uxSchedulerSuspended := k.uxSchedulerSuspended - 1 })
    else (false, { k with uxSchedulerSuspended := k.uxSchedulerSuspended - 1 }) := rfl
  rw [if_pos hs, if_pos hn] at heq
  rw [← portYIELD_ite]
  simp only [next, heq]
  cases k.caughtUp.xYieldPending <;> cases xYield <;> rfl

theorem next_resumeAll_nested (hs : k.uxSchedulerSuspended - 1 ≠ 0) (xYield : Bool) :
    k.next (.resumeAll xYield) =
      if xYield then { k with uxSchedulerSuspended := k.uxSchedulerSuspended - 1 }.portYIELD
      else { k with uxSchedulerSuspended := k.uxSchedulerSuspended - 1 } := by
  have heq : k.xTaskResumeAll =
      (false, { k with uxSchedulerSuspended := k.uxSchedulerSuspended - 1 }) := if_neg hs
  simp only [next, heq]
  cases xYield <;> rfl

structure MovedReady (k : Kernel τ ε) (a : Sched τ ε) (k' : Kernel τ ε) : Prop where
  view : View k' { a with task := fun t => (a.task t).resumed }
  same : k' = { k with
    lists := k'.lists, uxTopReadyPriority := k'.uxTopReadyPriority
    xNextTaskUnblockTime := k'.xNextTaskUnblockTime, xYieldPending := k'.xYieldPending
    uxSchedulerSuspended := k.uxSchedulerSuspended - 1 }
  yield : k'.xYieldPending = false → k.xYieldPending = false
  switch : k'.xYieldPending = false → ∀ t, k.Pending t → k.uxPriority t < k.uxPriority k.pxCurrentTCB

theorem movedReady_spec (h : View k a) : MovedReady k a k.movedReady := by
  let k₁ : Kernel τ ε := { k with uxSchedulerSuspended := k.uxSchedulerSuspended - 1 }
  have hview₁ : View k₁ a := h.flags rfl rfl rfl rfl
  have hmoves : Moves k₁ (k₁.movePendingReady false
      (k₁.lists.listCURRENT_LIST_LENGTH .xPendingReadyList + 1)).2 := by
    refine movePendingReady_spec hview₁.sound (fun t ht => ?_) false (Nat.lt_succ_self _)
    obtain ⟨wake, hw⟩ := (h.task t).pending_iff.mpr ht
    have hshow := h.task t
    rw [hw] at hshow
    obtain ⟨l, hl, hr, -⟩ := hshow.1.not_ready h.sound
    exact ⟨l, hl, hr⟩
  obtain ⟨out, hout⟩ : ∃ out, k₁.movePendingReady false
      (k₁.lists.listCURRENT_LIST_LENGTH .xPendingReadyList + 1) = out := ⟨_, rfl⟩
  have heq : k.movedReady = if out.1 then out.2.prvResetNextTaskUnblockTime else out.2 := by
    rw [← hout]
    rfl
  rw [hout] at hmoves
  rw [heq]
  obtain ⟨hreadies, hsame, hyield, hswitch⟩ := hmoves
  have hnext : out.2.xNextTaskUnblockTime = k₁.xNextTaskUnblockTime := by rw [hsame]
  have htick : out.2.xTickCount = k₁.xTickCount := by rw [hsame]
  have hview : View out.2 { a with task := fun t => (a.task t).resumed } := by
    refine hview₁.readied hreadies (hreadies.inTime hview₁.sound hview₁.inTime hnext) htick
      (fun t ht => ?_) (fun t ht => ?_) rfl rfl
    · obtain ⟨wake, hw⟩ := (h.task t).pending_iff.mpr ht
      show (a.task t).resumed = _ ∧ _
      rw [hw]
      exact ⟨rfl, by simp⟩
    · have hw : ∀ wake, a.task t ≠ .woken wake := fun wake hw =>
        ht ((h.task t).pending_iff.mp ⟨wake, hw⟩)
      show (a.task t).resumed = _
      cases hst : a.task t with
      | woken wake => exact absurd hst (hw wake)
      | _ => rfl
  have hreset : out.2.prvResetNextTaskUnblockTime.xYieldPending = out.2.xYieldPending := by
    rw [reset_eq]
  split_ifs
  · refine ⟨hview.reset, ?_, fun hy => hyield (hreset ▸ hy), fun hy => hswitch (hreset ▸ hy)⟩
    rw [reset_eq, hsame]
  · refine ⟨hview, ?_, hyield, hswitch⟩
    rw [hsame]

structure CaughtUp (k : Kernel τ ε) (a : Sched τ ε) (k' : Kernel τ ε) : Prop where
  view : View k' a.caughtUp
  same : ({ k with uxSchedulerSuspended := 0, xPendedTicks := 0 } : Kernel τ ε).SameButTicks k'
  yield : k'.xYieldPending = false → k.xYieldPending = false
  switch : k'.xYieldPending = false → ∀ t, a.caughtUp.task t = .ready → a.task t ≠ .ready →
    a.prio t ≤ a.prio a.running

theorem caughtUp_spec (h : View k a) (hs : k.uxSchedulerSuspended - 1 = 0)
    (hpended : k.xPendedTicks.toNat = a.pended) (hcur : k.pxCurrentTCB = a.running) :
    CaughtUp k a k.caughtUp := by
  obtain ⟨hview, hsame, hyield, hswitch⟩ := movedReady_spec h
  have hsusp : k.movedReady.uxSchedulerSuspended = 0 := by
    rw [hsame]
    exact hs
  have hcur' : k.movedReady.pxCurrentTCB = a.running := by
    rw [hsame]
    exact hcur
  have hcount : k.movedReady.xPendedTicks.toNat = a.pended := by
    rw [hsame]
    exact hpended
  obtain ⟨hview', hsame', hyield', hswitch'⟩ := processPendedTicks_spec hview hsusp a.pended
  have heq : k.caughtUp = { k.movedReady.processPendedTicks a.pended with xPendedTicks := 0 } := by
    rw [← hcount]
    rfl
  rw [heq]
  refine ⟨hview'.flags rfl rfl rfl rfl, ?_, fun hy => hyield (hyield' hy), fun hy t ht hnot => ?_⟩
  · unfold SameButTicks at *
    rw [hsame', hsame, hs]
  · by_cases hmid : (a.task t).resumed = .ready
    · have hpending : k.Pending t := (h.task t).pending_iff.mp
        (((resumed_ready_iff _).mp hmid).resolve_left hnot)
      have hlt := hswitch (hyield' hy) t hpending
      rw [h.prio, hcur] at hlt
      exact hlt.le
    · have hle := hswitch' hy t ht hmid
      rwa [hcur'] at hle

theorem resumeAll_refines (h : Refines idle k a) {xYield : Bool}
    (hen : k.Enabled idle (.resumeAll xYield)) :
    Refines idle (k.next (.resumeAll xYield)) a.resumeAll := by
  obtain ⟨hpos, hruns⟩ := hen
  have hdepth : (k.uxSchedulerSuspended - 1).toNat = a.depth - 1 := by
    rw [← h.depth]
    exact BitVec.toNat_sub_of_le (BitVec.le_def.mpr (BitVec.lt_def.mp hpos))
  have hzero : k.uxSchedulerSuspended - 1 = 0 ↔ a.depth - 1 = 0 := by
    rw [← hdepth, ← BitVec.toNat_inj]
    rfl
  by_cases hd : a.depth - 1 = 0
  · have hs := hzero.mpr hd
    rw [next_resumeAll_eq hs h.tasks_pos, Sched.resumeAll_last hd]
    obtain ⟨hview, hsame, hyield, hswitch⟩ := caughtUp_spec h.view hs h.pended h.running
    generalize k.caughtUp = k' at *
    unfold SameButTicks at hsame
    have hpend : k'.pendSV = k.pendSV := by rw [hsame]
    have habsent : {t | a.caughtUp.task t ≠ .absent} = {t | a.task t ≠ .absent} :=
      Set.ext fun t => not_congr (caughtUp_absent_iff a t)
    have hdeleted : {t | a.caughtUp.task t = .deleted} = {t | a.task t = .deleted} :=
      Set.ext fun t => caughtUp_deleted_iff a t
    refine ⟨hview.flags rfl rfl rfl rfl, ?_, ?_, ?_, ?_,
      fun _ => ⟨rfl, caughtUp_ne_woken a⟩, caughtUp_ready h.idle, ?_, ?_,
      fun hp _ => ?_, fun hp _ t ht => ?_⟩
    · rw [hsame]
      exact h.started
    · rw [hsame, caughtUp_running]
      exact h.running
    · rw [hsame]
      rfl
    · rw [hsame]
      rfl
    · rw [habsent, h.tasks, hsame]
    · rw [hdeleted, h.deleted, hsame]
    · -- the caller has not yielded, so it has not blocked
      have hx := (Bool.or_eq_false_iff.mp (Bool.or_eq_false_iff.mp hp).1).2
      have hcur : k.stateOf k.pxCurrentTCB = _ := hruns.resolve_right (by simp [hx])
      rw [h.running] at hcur
      rw [caughtUp_running]
      exact caughtUp_ready ((ready_iff h _).mpr hcur)
    · obtain ⟨hno, hp'⟩ := Bool.or_eq_false_iff.mp hp
      have hy := (Bool.or_eq_false_iff.mp hno).1
      rw [caughtUp_prio, caughtUp_running]
      by_cases hold : a.task t = .ready
      · exact h.top (hpend ▸ hp') (hyield hy) t hold
      · exact hswitch hy t ht hold
  · rw [next_resumeAll_nested (mt hzero.mp hd), Sched.resumeAll_nested hd]
    have hout : Refines idle { k with uxSchedulerSuspended := k.uxSchedulerSuspended - 1 }
        { a with depth := a.depth - 1 } :=
      ⟨h.view.flags rfl rfl rfl rfl, h.started, h.running, hdepth, h.pended,
        fun hd' => absurd hd' hd, h.idle, h.tasks, h.deleted, fun _ hd' => absurd hd' hd, h.top⟩
    split_ifs
    · exact portYIELD_refines hout
    · exact hout

structure Delays (k : Kernel τ ε) (now : ℕ) (wake : Option ℕ) (k' : Kernel τ ε) : Prop where
  sound : Sound k'
  inTime : k'.UnblockInTime
  same : k.SameButLists k'
  state : ∀ t, t ≠ k.pxCurrentTCB → k'.stateOf t = k.stateOf t
  event : ∀ t, k'.eventOf t = k.eventOf t
  value : ∀ n, n ≠ .item (.xStateListItem k.pxCurrentTCB) → k'.lists.xItemValue n = k.lists.xItemValue n
  sleeps : k'.SleepsUntil now k.pxCurrentTCB wake

def unreadied (k : Kernel τ ε) : Kernel τ ε :=
  { k with
    lists := (k.lists.uxListRemove (.xStateListItem k.pxCurrentTCB)).2
    uxTopReadyPriority :=
      if (k.lists.uxListRemove (.xStateListItem k.pxCurrentTCB)).1 = 0 then
        k.uxTopReadyPriority &&& ~~~BitVec.twoPow 32 (k.uxPriority k.pxCurrentTCB)
      else k.uxTopReadyPriority }

/-- Where the delayed task goes, and when the next one is unblocked. -/
theorem addDelayed_eq (k : Kernel τ ε) (d : U32) (b : Bool) :
    k.prvAddCurrentTaskToDelayedList d b =
      if d = portMAX_DELAY ∧ b then
        { k.unreadied with
          lists := k.unreadied.lists.vListInsertEnd .xSuspendedTaskList (.xStateListItem k.pxCurrentTCB) }
      else
        let m := k.unreadied.lists.listSET_LIST_ITEM_VALUE (.xStateListItem k.pxCurrentTCB)
          (k.xTickCount + d)
        if k.xTickCount + d < k.xTickCount then
          { k.unreadied with
            lists := m.vListInsert k.pxOverflowDelayedTaskList (.xStateListItem k.pxCurrentTCB) }
        else
          { k.unreadied with
            lists := m.vListInsert k.pxDelayedTaskList (.xStateListItem k.pxCurrentTCB)
            xNextTaskUnblockTime :=
              if k.xTickCount + d < k.xNextTaskUnblockTime then k.xTickCount + d
              else k.xNextTaskUnblockTime } := by
  unfold prvAddCurrentTaskToDelayedList unreadied portRESET_READY_PRIORITY
  by_cases hleft : (k.lists.uxListRemove (.xStateListItem k.pxCurrentTCB)).1 = 0
  all_goals
    simp only [hleft, if_true, if_false]
    split_ifs <;> rfl

theorem unreadied_sound (h : Sound k) (hcur : k.stateOf k.pxCurrentTCB = some (k.readyList k.pxCurrentTCB)) :
    Sound k.unreadied := h.drop hcur

theorem unreadied_container (k : Kernel τ ε) : k.unreadied.lists.pxContainer =
    Function.update k.lists.pxContainer (.xStateListItem k.pxCurrentTCB) none :=
  Lists.Holds.uxListRemove_container _ _

theorem unreadied_value (k : Kernel τ ε) : k.unreadied.lists.xItemValue = k.lists.xItemValue :=
  Lists.Holds.uxListRemove_value _ _

/-- The time to wake, in the list of this lap or of the next. -/
theorem timeToWake (now : ℕ) (hd : d ≠ 0) :
    Kept (2 ^ 32) now (now + d.toNat) (BitVec.ofNat 32 now + d).toNat
      (decide (BitVec.ofNat 32 now + d < BitVec.ofNat 32 now)) := by
  have hpos : 0 < d.toNat := Nat.pos_of_ne_zero fun hz => hd (BitVec.eq_of_toNat_eq hz)
  have hkept : Kept (2 ^ 32) now (now + d.toNat) ((now % 2 ^ 32 + d.toNat) % 2 ^ 32) _ :=
    Kept.of_delay hpos d.isLt
  have hlt : (BitVec.ofNat 32 now + d < BitVec.ofNat 32 now) ↔
      (now % 2 ^ 32 + d.toNat) % 2 ^ 32 < now % 2 ^ 32 := by
    rw [BitVec.lt_def, BitVec.toNat_add, BitVec.toNat_ofNat]
  rw [BitVec.toNat_add, BitVec.toNat_ofNat]
  simp only [hlt]
  exact hkept

theorem delays_of {l : TaskList ε} {v : U32} (htime : k.UnblockInTime) (hk : Sound k')
    (hsame : k.SameButLists k')
    (hcont : k'.lists.pxContainer =
      Function.update k.lists.pxContainer (.xStateListItem k.pxCurrentTCB) (some l))
    (hvalue : k'.lists.xItemValue =
      Function.update k.lists.xItemValue (.item (.xStateListItem k.pxCurrentTCB)) v)
    (hle : k'.xNextTaskUnblockTime ≤ k.xNextTaskUnblockTime)
    (hnext : l = k.pxDelayedTaskList → k'.xNextTaskUnblockTime ≤ v)
    (hsleeps : k'.SleepsUntil now k.pxCurrentTCB wake) : Delays k now wake k' := by
  have hpx : k'.pxDelayedTaskList = k.pxDelayedTaskList := by rw [hsame]
  have hstate : ∀ t, t ≠ k.pxCurrentTCB → k'.stateOf t = k.stateOf t := by
    intro t ht
    rw [stateOf, hcont, Function.update_of_ne (by simpa using ht)]
  have hother : ∀ n, n ≠ .item (.xStateListItem k.pxCurrentTCB) →
      k'.lists.xItemValue n = k.lists.xItemValue n := by
    intro n hn
    rw [hvalue, Function.update_of_ne hn]
  refine ⟨hk, fun t ht => ?_, hsame, hstate, fun t => ?_, hother, hsleeps⟩
  · rw [hpx] at ht
    by_cases hcur : t = k.pxCurrentTCB
    · subst hcur
      rw [stateOf, hcont, Function.update_self] at ht
      rw [timeOf, hvalue, Function.update_self]
      exact hnext (Option.some.inj ht)
    · rw [hstate t hcur] at ht
      rw [timeOf, hother _ (by simpa using hcur)]
      exact BitVec.le_trans hle (htime t ht)
  · rw [eventOf, hcont, Function.update_of_ne (by simp)]

theorem addDelayed_spec (h : Sound k) (htime : k.UnblockInTime)
    (htick : k.xTickCount = BitVec.ofNat 32 now)
    (hcur : k.stateOf k.pxCurrentTCB = some (k.readyList k.pxCurrentTCB)) (hd : d ≠ 0) (b : Bool) :
    Delays k now (if d = portMAX_DELAY ∧ b then none else some (now + d.toNat))
      (k.prvAddCurrentTaskToDelayedList d b) := by
  have hsound := unreadied_sound h hcur
  have hcont := k.unreadied_container
  have hvalue := k.unreadied_value
  have hnone : k.unreadied.lists.pxContainer (.xStateListItem k.pxCurrentTCB) = none := by
    rw [hcont, Function.update_self]
  have hset : Sound { k.unreadied with
      lists := k.unreadied.lists.listSET_LIST_ITEM_VALUE (.xStateListItem k.pxCurrentTCB)
        (k.xTickCount + d) } := hsound.set_value hnone _
  have hkept := timeToWake now hd
  rw [← htick] at hkept
  have htakes : (k.pxDelayedTaskList.Takes (.xStateListItem k.pxCurrentTCB : TaskItem τ) = true ∧
      k.pxDelayedTaskList.IsSorted = true) ∧
      k.pxOverflowDelayedTaskList.Takes (.xStateListItem k.pxCurrentTCB : TaskItem τ) = true ∧
      k.pxOverflowDelayedTaskList.IsSorted = true ∧
      k.pxOverflowDelayedTaskList ≠ k.pxDelayedTaskList ∧
      .xSuspendedTaskList ≠ k.pxDelayedTaskList := by
    rcases h.delayed with ⟨hpx, hpo⟩ | ⟨hpx, hpo⟩ <;> rw [hpx, hpo] <;> exact ⟨⟨rfl, rfl⟩, rfl, rfl, by simp⟩
  obtain ⟨hpx, hpo, hpo', hne, hne'⟩ := htakes
  rw [addDelayed_eq]
  by_cases hforever : d = portMAX_DELAY ∧ b = true
  · rw [if_pos hforever, if_pos hforever]
    refine delays_of (l := .xSuspendedTaskList) (v := k.timeOf k.pxCurrentTCB) htime
      (hsound.insertEnd hnone rfl rfl rfl) rfl ?_ ?_ (BitVec.le_refl _) (fun heq => absurd heq hne') ?_
    · rw [Lists.Holds.vListInsertEnd_container, hcont, Function.update_idem]
    · rw [Lists.Holds.vListInsertEnd_value, hvalue, Function.update_eq_self]
    · show Function.update _ _ _ _ = _
      rw [Function.update_self]
  · rw [if_neg hforever, if_neg hforever]
    by_cases hwrap : k.xTickCount + d < k.xTickCount
    · simp only [if_pos hwrap]
      refine delays_of (l := k.pxOverflowDelayedTaskList) (v := k.xTickCount + d) htime
        (hset.insert hnone hpo hpo') rfl ?_ ?_ (BitVec.le_refl _) (fun heq => absurd heq hne)
        ⟨true, ?_, ?_⟩
      · rw [Lists.Holds.vListInsert_container]
        simp only [Lists.listSET_LIST_ITEM_VALUE]
        rw [hcont, Function.update_idem]
      · rw [Lists.Holds.vListInsert_value]
        simp only [Lists.listSET_LIST_ITEM_VALUE]
        rw [hvalue]
      · show Function.update _ _ _ _ = _
        rw [Function.update_self]
        rfl
      · rw [decide_eq_true hwrap] at hkept
        rw [timeOf, Lists.Holds.vListInsert_value]
        simp only [Lists.listSET_LIST_ITEM_VALUE]
        rw [Function.update_self]
        exact hkept
    · simp only [if_neg hwrap]
      have hmin : (if k.xTickCount + d < k.xNextTaskUnblockTime then k.xTickCount + d
          else k.xNextTaskUnblockTime) ≤ k.xNextTaskUnblockTime ∧
          (if k.xTickCount + d < k.xNextTaskUnblockTime then k.xTickCount + d
          else k.xNextTaskUnblockTime) ≤ k.xTickCount + d := by
        by_cases hlt : k.xTickCount + d < k.xNextTaskUnblockTime
        · rw [if_pos hlt]
          exact ⟨BitVec.le_of_lt hlt, BitVec.le_refl _⟩
        · rw [if_neg hlt]
          exact ⟨BitVec.le_refl _, BitVec.not_lt.mp hlt⟩
      refine delays_of (l := k.pxDelayedTaskList) (v := k.xTickCount + d) htime
        ((hset.insert hnone hpx.1 hpx.2).of_eq rfl rfl rfl rfl rfl) rfl ?_ ?_ hmin.1 (fun _ => hmin.2)
        ⟨false, ?_, ?_⟩
      · rw [Lists.Holds.vListInsert_container]
        simp only [Lists.listSET_LIST_ITEM_VALUE]
        rw [hcont, Function.update_idem]
      · rw [Lists.Holds.vListInsert_value]
        simp only [Lists.listSET_LIST_ITEM_VALUE]
        rw [hvalue]
      · show Function.update _ _ _ _ = _
        rw [Function.update_self]
        rfl
      · rw [decide_eq_false hwrap] at hkept
        rw [timeOf, Lists.Holds.vListInsert_value]
        simp only [Lists.listSET_LIST_ITEM_VALUE]
        rw [Function.update_self]
        exact hkept

theorem delay_refines (h : Refines idle k a) (hen : k.Enabled idle (.delay d)) :
    Refines idle (k.next (.delay d))
      (a.set a.running (.blocked none (some (a.now + d.toNat)))) := by
  obtain ⟨hruns, hsusp, hidle, hd⟩ := hen
  have hspec := addDelayed_spec h.view.sound h.view.inTime h.view.tick hruns hd false
  rw [if_neg (by simp)] at hspec
  have hcur := (ready_iff h k.pxCurrentTCB).mpr hruns
  have hshow := h.view.task k.pxCurrentTCB
  rw [hcur] at hshow
  have hsame := hspec.same
  refine blocked_refines h hruns hsusp hidle ?_ hsame
  rw [← h.running]
  exact h.view.moved hspec.sound hspec.inTime hsame hspec.state (fun t' _ => hspec.event t') hspec.value
    (by rw [hcur]; simp) ⟨hspec.sleeps, (hspec.event _).trans hshow.2⟩

theorem wait_refines (h : Refines idle k a) (hen : k.Enabled idle (.wait e d)) :
    Refines idle (k.next (.wait e d))
      (a.set a.running
        (.blocked (some e) (if d = portMAX_DELAY then none else some (a.now + d.toNat)))) := by
  obtain ⟨hruns, hsusp, hidle, hd⟩ := hen
  have hcur := (ready_iff h k.pxCurrentTCB).mpr hruns
  have hshow := h.view.task k.pxCurrentTCB
  rw [hcur] at hshow
  let k₁ : Kernel τ ε :=
    { k with lists := k.lists.vListInsert (.pxEventList e) (.xEventListItem k.pxCurrentTCB) }
  have hcont₁ : k₁.lists.pxContainer =
      Function.update k.lists.pxContainer (.xEventListItem k.pxCurrentTCB) (some (.pxEventList e)) := rfl
  have hstate₁ : ∀ t, k₁.stateOf t = k.stateOf t := by
    intro t
    rw [stateOf, hcont₁, Function.update_of_ne (by simp)]
  have hsound₁ : Sound k₁ := h.view.sound.insert hshow.2 rfl rfl
  have htime₁ : k₁.UnblockInTime := fun t ht => h.view.inTime t ((hstate₁ t).symm.trans ht)
  have hspec := addDelayed_spec hsound₁ htime₁ h.view.tick ((hstate₁ _).trans hruns) hd true
  simp only [and_true] at hspec
  have hsame : k.SameButLists (k₁.prvAddCurrentTaskToDelayedList d true) := by
    have hsame₁ : k.SameButLists k₁ := rfl
    exact hsame₁.trans hspec.same
  refine blocked_refines h hruns hsusp hidle ?_ hsame
  rw [← h.running]
  refine h.view.moved hspec.sound hspec.inTime hsame
    (fun t' ht' => (hspec.state t' ht').trans (hstate₁ t')) (fun t' ht' => (hspec.event t').trans ?_)
    hspec.value (by rw [hcur]; simp) ⟨hspec.sleeps, (hspec.event _).trans ?_⟩
  · rw [eventOf, hcont₁, Function.update_of_ne (by simpa using ht')]
  · show k₁.lists.pxContainer (.xEventListItem k.pxCurrentTCB) = _
    rw [hcont₁, Function.update_self]
    rfl

end Kernel

end Stm32F407
