import Stm32F407.Proofs.RtosLifecycle

/-! The kernel from the creation of the first task to the start of the scheduler. -/

namespace Stm32F407

open Lib Sched

section Initialise

variable {κ ι : Type} {m : Lists κ ι} {l l' : κ}

/-- Initialised lists are the rings of their markers. -/
theorem holds_of_initialised (hinit : ∀ l, m.IsInitialised l) (hnone : ∀ i, m.pxContainer i = none) :
    m.Holds fun l => [.xListEnd l] :=
  ⟨fun l => isRing_singleton.mpr ⟨(hinit l).next, (hinit l).prev⟩, fun _ => List.nodup_singleton _,
    fun l => congrArg some (hinit l).index.symm, fun l l' => by simp, fun i l => by simp [hnone],
    fun l => by simp [(hinit l).count], fun l => (hinit l).value⟩

variable [DecidableEq κ] [DecidableEq ι]

theorem isInitialised_self (m : Lists κ ι) (l : κ) : (m.vListInitialise l).IsInitialised l :=
  ⟨Function.update_self _ _ _, Function.update_self _ _ _, Function.update_self _ _ _,
    Function.update_self _ _ _, Function.update_self _ _ _⟩

theorem Lists.IsInitialised.of_other (h : m.IsInitialised l) (l' : κ) :
    (m.vListInitialise l').IsInitialised l := by
  by_cases heq : l = l'
  · subst heq
    exact isInitialised_self m l
  · have hend : ListNode.xListEnd l ≠ (.xListEnd l' : ListNode κ ι) := by simpa using heq
    exact ⟨(Function.update_of_ne heq _ _).trans h.index, (Function.update_of_ne hend _ _).trans h.value,
      (Function.update_of_ne hend _ _).trans h.next, (Function.update_of_ne hend _ _).trans h.prev,
      (Function.update_of_ne heq _ _).trans h.count⟩

theorem vListInitialise_set (m : Lists κ ι) (l : κ) (i : ι) (v : U32) :
    (m.listSET_LIST_ITEM_VALUE i v).vListInitialise l =
      (m.vListInitialise l).listSET_LIST_ITEM_VALUE i v := by
  unfold Lists.vListInitialise Lists.listSET_LIST_ITEM_VALUE
  simp only
  rw [Function.update_comm (by simp)]

end Initialise

variable {τ ε : Type}

namespace Kernel

variable {k : Kernel τ ε} {a : Sched τ ε} {t t₀ idle timer : τ} {m : TaskLists τ ε}

/-- Before the scheduler starts: tasks have been created, and the current one has the
highest priority. -/
structure Booting (k : Kernel τ ε) (a : Sched τ ε) : Prop where
  view : View k a
  running : k.pxCurrentTCB = a.running
  stopped : k.xSchedulerRunning = false
  depth : k.uxSchedulerSuspended = 0 ∧ a.depth = 0
  pended : k.xPendedTicks = 0 ∧ a.pended = 0
  now : a.now = 0
  switch : k.xYieldPending = false ∧ k.pendSV = false
  states : ∀ t, a.task t = .ready ∨ a.task t = .absent
  tasks : {t | a.task t ≠ .absent}.encard = k.uxCurrentNumberOfTasks
  deleted : k.uxDeletedTasksWaitingCleanUp = 0
  top : a.IsTop a.running

theorem started_refines (h : Booting k a) (hidle : a.task idle = .ready) :
    Refines idle { k with
      xNextTaskUnblockTime := portMAX_DELAY, xSchedulerRunning := true, xTickCount := 0 } a := by
  have htick : k.xTickCount = 0 := by
    rw [h.view.tick, h.now]
    rfl
  have hnever : ∀ t, k.stateOf t ≠ some k.pxDelayedTaskList := by
    intro t ht
    have hl := TaskList.not_ready_of_sorted h.view.sound.delayed_sorted
    rcases h.states t with hs | hs
    · have hready := ((h.view.task t).ready_iff h.view.sound).mp hs
      rw [← Option.some.inj (hready.symm.trans ht)] at hl
      cases hl
    · cases (((h.view.task t).absent_iff h.view.sound).mp hs).symm.trans ht
  have hview : View { k with
      xNextTaskUnblockTime := portMAX_DELAY, xSchedulerRunning := true, xTickCount := 0 } a :=
    ⟨h.view.sound.of_eq rfl rfl rfl rfl rfl, fun t ht => absurd ht (hnever t),
      htick.symm.trans h.view.tick, h.view.prio,
      fun t => (h.view.task t).congr rfl rfl rfl rfl rfl rfl, h.view.value⟩
  refine ⟨hview, rfl, h.running, (congrArg BitVec.toNat h.depth.1).trans h.depth.2.symm, ?_,
    fun _ => ⟨h.pended.2, fun t wake => ?_⟩,
    hidle, h.tasks, ?_, fun _ _ => h.top.1, fun _ _ => h.top.2⟩
  · show k.xPendedTicks.toNat = _
    rw [h.pended.1, h.pended.2]
    rfl
  · rcases h.states t with hs | hs <;> simp [hs]
  · show _ = ((k.uxDeletedTasksWaitingCleanUp : ℕ) : ℕ∞)
    rw [h.deleted, Nat.cast_zero, Set.encard_eq_zero, Set.eq_empty_iff_forall_notMem]
    intro t ht
    rcases h.states t with hs | hs <;> cases hs.symm.trans ht

variable [DecidableEq τ] [DecidableEq ε]

def initialiseLists (m : TaskLists τ ε) : TaskLists τ ε :=
  let m := (List.finRange 5).foldl (fun m p => m.vListInitialise (.pxReadyTasksLists p)) m
  let m := m.vListInitialise .xDelayedTaskList1
  let m := m.vListInitialise .xDelayedTaskList2
  let m := m.vListInitialise .xPendingReadyList
  let m := m.vListInitialise .xTasksWaitingTermination
  m.vListInitialise .xSuspendedTaskList

theorem readyLists_initialised (ps : List (Fin 5)) (l : TaskList ε)
    (hl : m.IsInitialised l ∨ ∃ p ∈ ps, l = .pxReadyTasksLists p) :
    (ps.foldl (fun m p => m.vListInitialise (.pxReadyTasksLists p)) m).IsInitialised l := by
  induction ps generalizing m with
  | nil =>
    rcases hl with hl | ⟨p, hp, -⟩
    · exact hl
    · cases hp
  | cons q ps ih =>
    refine ih ?_
    rcases hl with hl | ⟨p, hp, rfl⟩
    · exact Or.inl (hl.of_other _)
    · rcases List.mem_cons.mp hp with rfl | hp
      · exact Or.inl (isInitialised_self _ _)
      · exact Or.inr ⟨p, hp, rfl⟩

theorem initialiseLists_initialised (hm : ∀ e, m.IsInitialised (.pxEventList e)) (l : TaskList ε) :
    (initialiseLists m).IsInitialised l := by
  unfold initialiseLists
  cases l with
  | pxReadyTasksLists p =>
    exact (((((readyLists_initialised _ _ (Or.inr ⟨p, List.mem_finRange p, rfl⟩)).of_other _).of_other
      _).of_other _).of_other _).of_other _
  | pxEventList e =>
    exact (((((readyLists_initialised _ _ (Or.inl (hm e))).of_other _).of_other _).of_other _).of_other
      _).of_other _
  | xDelayedTaskList1 =>
    exact ((((isInitialised_self _ _).of_other _).of_other _).of_other _).of_other _
  | xDelayedTaskList2 => exact (((isInitialised_self _ _).of_other _).of_other _).of_other _
  | xPendingReadyList => exact ((isInitialised_self _ _).of_other _).of_other _
  | xTasksWaitingTermination => exact (isInitialised_self _ _).of_other _
  | xSuspendedTaskList => exact isInitialised_self _ _

theorem initialiseLists_container (m : TaskLists τ ε) :
    (initialiseLists m).pxContainer = m.pxContainer := by
  have hfold : ∀ (ps : List (Fin 5)) (m : TaskLists τ ε),
      (ps.foldl (fun m p => m.vListInitialise (.pxReadyTasksLists p)) m).pxContainer = m.pxContainer := by
    intro ps
    induction ps with
    | nil => exact fun _ => rfl
    | cons p ps ih => exact fun m => ih _
  exact hfold _ m

theorem initialiseLists_set (m : TaskLists τ ε) (i : TaskItem τ) (v : U32) :
    initialiseLists (m.listSET_LIST_ITEM_VALUE i v) =
      (initialiseLists m).listSET_LIST_ITEM_VALUE i v := by
  have hfold : ∀ (ps : List (Fin 5)) (m : TaskLists τ ε),
      ps.foldl (fun m p => m.vListInitialise (.pxReadyTasksLists p)) (m.listSET_LIST_ITEM_VALUE i v) =
        (ps.foldl (fun m p => m.vListInitialise (.pxReadyTasksLists p)) m).listSET_LIST_ITEM_VALUE i v := by
    intro ps
    induction ps with
    | nil => exact fun _ => rfl
    | cons p ps ih =>
      intro m
      rw [List.foldl_cons, List.foldl_cons, vListInitialise_set]
      exact ih _
  unfold initialiseLists
  simp only [hfold, vListInitialise_set]

def bootTask (a : Sched τ ε) (p : ℕ) (t : τ) : Sched τ ε :=
  { a.set t .ready with
    prio := Function.update a.prio t (clamp p)
    running := if a.prio a.running ≤ clamp p then t else a.running }

theorem prvAddNewTaskToReadyList_stopped (hrun : k.xSchedulerRunning = false) (t : τ) :
    k.prvAddNewTaskToReadyList t = { k.prvAddTaskToReadyList t with
      uxCurrentNumberOfTasks := k.uxCurrentNumberOfTasks + 1
      pxCurrentTCB := if k.uxPriority k.pxCurrentTCB ≤ k.uxPriority t then t else k.pxCurrentTCB } := by
  obtain ⟨lists, prio, cur, _, _, _, _, _, _, _, _, _, run, _, _, _⟩ := k
  obtain rfl : run = false := hrun
  unfold prvAddNewTaskToReadyList prvAddTaskToReadyList portRECORD_READY_PRIORITY portYIELD readyList
  by_cases hle : prio cur ≤ prio t <;> simp [hle]

theorem Booting.create (h : Booting k a) (ht : a.task t = .absent) (p : ℕ) :
    Booting (k.xTaskCreate p t) (bootTask a p t) := by
  have hview := create_view h.view ht p
  have hrunning := h.top.1
  have hne : a.running ≠ t := by
    rintro heq
    rw [heq] at hrunning
    cases hrunning.symm.trans ht
  have hprio : k.uxPriority = a.prio := h.view.prio
  have heq : k.xTaskCreate p t = { (k.prvInitialiseNewTask p t).prvAddTaskToReadyList t with
      uxCurrentNumberOfTasks := k.uxCurrentNumberOfTasks + 1
      pxCurrentTCB := if a.prio a.running ≤ clamp p then t else a.running } := by
    have hraw := prvAddNewTaskToReadyList_stopped (k := k.prvInitialiseNewTask p t) h.stopped t
    have hcur : (k.prvInitialiseNewTask p t).pxCurrentTCB = a.running := h.running
    have hpr : (k.prvInitialiseNewTask p t).uxPriority = Function.update a.prio t (clamp p) := by
      rw [← hprio]
      rfl
    rw [hcur, hpr, Function.update_of_ne hne, Function.update_self] at hraw
    exact hraw
  rw [heq]
  have hold : ∀ t', t' ≠ t → a.task t' = .ready → a.prio t' ≤ a.prio a.running := fun t' _ ht' =>
    h.top.2 t' ht'
  refine ⟨hview.flags rfl rfl rfl rfl, rfl, h.stopped, h.depth, h.pended, h.now, h.switch,
    fun t' => ?_, ?_, h.deleted, ?_, fun t' ht' => ?_⟩
  · show (a.set t .ready).task t' = _ ∨ (a.set t .ready).task t' = _
    by_cases heq' : t' = t
    · rw [heq', set_self]
      exact Or.inl rfl
    · rw [set_of_ne a _ heq']
      exact h.states t'
  · exact encard_set_add (P := fun s => s ≠ .absent) (by simp [ht]) (by simp) h.tasks
  · show (a.set t .ready).task (if a.prio a.running ≤ clamp p then t else a.running) = _
    split_ifs
    · exact set_self a _ _
    · exact (set_of_ne a _ hne).trans hrunning
  · show Function.update a.prio t (clamp p) t' ≤
      Function.update a.prio t (clamp p) (if a.prio a.running ≤ clamp p then t else a.running)
    split_ifs with hle
    · rw [Function.update_self]
      by_cases heq' : t' = t
      · rw [heq', Function.update_self]
      · rw [Function.update_of_ne heq']
        exact (hold t' heq' ((set_of_ne a _ heq').symm.trans ht')).trans hle
    · rw [Function.update_of_ne hne]
      by_cases heq' : t' = t
      · rw [heq', Function.update_self]
        exact (not_le.mp hle).le
      · rw [Function.update_of_ne heq']
        exact hold t' heq' ((set_of_ne a _ heq').symm.trans ht')

def unstarted (priorities : τ → Fin 5) (t : τ) : Sched τ ε :=
  { now := 0, pended := 0, depth := 0, running := t, prio := priorities, task := fun _ => .absent }

theorem start_booting (hm : Fresh m) (priorities : τ → Fin 5) (p : ℕ) (t : τ) :
    Booting (start m priorities p t)
      { (unstarted priorities t).set t .ready with prio := Function.update priorities t (clamp p) } := by
  let k₀ : Kernel τ ε :=
    { lists := initialiseLists m, uxPriority := priorities, pxCurrentTCB := t
      pxDelayedTaskList := .xDelayedTaskList1, pxOverflowDelayedTaskList := .xDelayedTaskList2
      uxTopReadyPriority := 0, xTickCount := 0, xNextTaskUnblockTime := 0
      uxSchedulerSuspended := 0, xPendedTicks := 0, xYieldPending := false, xNumOfOverflows := 0
      xSchedulerRunning := false, uxCurrentNumberOfTasks := 1
      uxDeletedTasksWaitingCleanUp := 0, pendSV := false }
  have hnone : ∀ i, (initialiseLists m).pxContainer i = none := by
    intro i
    rw [initialiseLists_container]
    exact hm.items i
  have hinit := initialiseLists_initialised hm.events
  have hrings : Rings (initialiseLists m) fun l => [.xListEnd l] :=
    ⟨holds_of_initialised hinit hnone, fun l _ => (hinit l).index, fun _ _ => List.pairwise_singleton _ _⟩
  have hview₀ : View k₀ (unstarted priorities t) := by
    refine ⟨⟨⟨_, hrings⟩, fun i l hi => ?_, fun t' p' ht' => ?_, fun p' => ?_, fun n _ => ?_,
      Or.inl ⟨rfl, rfl⟩⟩, fun t' ht' => ?_, rfl, rfl, fun t' => ⟨hnone _, hnone _⟩,
      fun t' ht' => absurd rfl ht'⟩
    · exact Option.some_ne_none l (hi.symm.trans (hnone i)) |>.elim
    · exact Option.some_ne_none _ (ht'.symm.trans (hnone _)) |>.elim
    · refine ⟨fun hbit => ?_, fun ⟨t', ht'⟩ => (Option.some_ne_none _ (ht'.symm.trans (hnone _))).elim⟩
      exact (Bool.false_ne_true ((BitVec.getLsbD_zero (w := 32) (i := p')).symm.trans hbit)).elim
    · exact BitVec.getLsbD_zero (w := 32) (i := n)
    · exact Option.some_ne_none _ (ht'.symm.trans (hnone _)) |>.elim
  have hcreate := create_view (t := t) hview₀ rfl p
  have heq : start m priorities p t = (k₀.prvInitialiseNewTask p t).prvAddTaskToReadyList t := by
    show Kernel.prvAddTaskToReadyList (Kernel.mk (initialiseLists
      (((m.vListInitialiseItem (.xStateListItem t)).vListInitialiseItem
        (.xEventListItem t)).listSET_LIST_ITEM_VALUE (.xEventListItem t)
          (5 - BitVec.ofNat 32 (clamp p)))) _ _ _ _ _ _ _ _ _ _ _ _ _ _ _) t = _
    rw [vListInitialiseItem_eq (hm.items _), vListInitialiseItem_eq (hm.items _), initialiseLists_set]
    unfold prvInitialiseNewTask
    simp only [k₀, vListInitialiseItem_eq (hnone _)]
  rw [heq]
  refine ⟨hcreate, rfl, rfl, ⟨rfl, rfl⟩, ⟨rfl, rfl⟩, rfl, ⟨rfl, rfl⟩, fun t' => ?_, ?_, rfl, ?_, ?_⟩
  · by_cases heq' : t' = t
    · subst heq'
      exact Or.inl (set_self _ _ _)
    · exact Or.inr (set_of_ne _ _ heq')
  · refine encard_set_add (P := fun s => s ≠ .absent) (n := 0) (by simp [unstarted]) (by simp) ?_
    simp [unstarted]
  · exact set_self _ _ _
  · intro t' ht'
    by_cases heq' : t' = t
    · rw [heq']
      exact le_rfl
    · cases (set_of_ne (unstarted priorities t) .ready heq').symm.trans ht'

theorem creates_booting (more : List (τ × ℕ)) (h : Booting k a)
    (hnew : ∀ task ∈ more, a.task task.1 = .absent) (hnd : (more.map Prod.fst).Nodup) :
    ∃ a', Booting (more.foldl (fun k task => k.xTaskCreate task.2 task.1) k) a' ∧
      ∀ t, a'.task t = .ready ↔ a.task t = .ready ∨ t ∈ more.map Prod.fst := by
  induction more generalizing k a with
  | nil => exact ⟨a, h, fun t => by simp⟩
  | cons task more ih =>
    obtain ⟨hfirst, hnd'⟩ := List.nodup_cons.mp hnd
    have hcreate := h.create (hnew task (by simp)) task.2
    have hother : ∀ t, t ≠ task.1 → (bootTask a task.2 task.1).task t = a.task t := fun t ht =>
      set_of_ne a _ ht
    have hnew' : ∀ task' ∈ more, (bootTask a task.2 task.1).task task'.1 = .absent := by
      intro task' htask'
      have hne : task'.1 ≠ task.1 := fun heq => hfirst (heq ▸ List.mem_map_of_mem htask')
      rw [hother _ hne]
      exact hnew task' (List.mem_cons_of_mem _ htask')
    obtain ⟨a', hboot, htasks⟩ := ih hcreate hnew' hnd'
    refine ⟨a', hboot, fun t => (htasks t).trans ?_⟩
    have hfirst' : (bootTask a task.2 task.1).task t = .ready ↔ t = task.1 ∨ a.task t = .ready :=
      set_ready_iff a task.1 t
    rw [hfirst', List.map_cons, List.mem_cons, or_assoc, or_left_comm]

/-- The scheduler starts with the tasks created, the idle task and the timer task. -/
theorem boot_refines (hm : Fresh m) (priorities : τ → Fin 5) (first : τ × ℕ) (more : List (τ × ℕ))
    (hnd : (idle :: timer :: first.1 :: more.map Prod.fst).Nodup) :
    Refines idle (boot m priorities first more idle timer)
      (Sched.booted (boot m priorities first more idle timer)
        (idle :: timer :: first.1 :: more.map Prod.fst)) := by
  have hstart := start_booting hm priorities first.2 first.1
  simp only [List.nodup_cons, List.mem_cons, not_or] at hnd
  obtain ⟨⟨hit, hif, him⟩, ⟨htf, htm⟩, hfm, hnd⟩ := hnd
  have hnew : ∀ t, t ≠ first.1 → ({ (unstarted priorities first.1).set first.1 .ready with
      prio := Function.update priorities first.1 (clamp first.2) } : Sched τ ε).task t = .absent :=
    fun t ht => set_of_ne _ _ ht
  obtain ⟨a, hboot, htasks⟩ := creates_booting more hstart (fun task htask => hnew _ fun heq =>
    hfm (heq ▸ List.mem_map_of_mem htask)) hnd
  have habsent : ∀ t, t ≠ first.1 → t ∉ more.map Prod.fst → a.task t = .absent := by
    intro t ht ht'
    refine (hboot.states t).resolve_left fun hready => ?_
    rcases (htasks t).mp hready with hs | hs
    · cases (hnew t ht).symm.trans hs
    · exact ht' hs
  have hboot₁ := hboot.create (habsent idle hif him) 0
  have htimer : (bootTask a 0 idle).task timer = .absent :=
    (set_of_ne a _ (Ne.symm hit)).trans (habsent timer htf htm)
  have hboot₂ := hboot₁.create htimer 4
  have hidle : (bootTask (bootTask a 0 idle) 4 timer).task idle = .ready :=
    (set_of_ne _ _ hit).trans (set_self a _ _)
  have hout := started_refines hboot₂ hidle
  have heq : Sched.booted (boot m priorities first more idle timer)
      (idle :: timer :: first.1 :: more.map Prod.fst) = bootTask (bootTask a 0 idle) 4 timer := by
    have hrun := hout.running
    have hprio := hout.view.prio
    have hstate : ∀ t, (bootTask (bootTask a 0 idle) 4 timer).task t = .ready ↔
        t ∈ idle :: timer :: first.1 :: more.map Prod.fst := by
      intro t
      have hlast : (bootTask (bootTask a 0 idle) 4 timer).task t = .ready ↔
          t = timer ∨ t = idle ∨ a.task t = .ready :=
        (set_ready_iff _ timer t).trans (or_congr_right (set_ready_iff a idle t))
      have hfirst : ({ (unstarted priorities first.1).set first.1 .ready with
          prio := Function.update priorities first.1 (clamp first.2) } : Sched τ ε).task t = .ready ↔
          t = first.1 :=
        (set_ready_iff _ first.1 t).trans (by simp [unstarted])
      rw [hlast, htasks, hfirst, or_left_comm]
      simp only [List.mem_cons]
    have htask : (bootTask (bootTask a 0 idle) 4 timer).task =
        fun t => if t ∈ idle :: timer :: first.1 :: more.map Prod.fst then .ready else .absent := by
      funext t
      split_ifs with hmem
      · exact (hstate t).mpr hmem
      · exact (hboot₂.states t).resolve_left fun hready => hmem ((hstate t).mp hready)
    unfold Sched.booted
    rw [← htask]
    have hfields := And.intro hboot₂.now (And.intro hboot₂.pended.2 hboot₂.depth.2)
    generalize bootTask (bootTask a 0 idle) 4 timer = b at hrun hprio hfields ⊢
    obtain ⟨now, pended, depth, running, prio, task⟩ := b
    obtain ⟨rfl, rfl, rfl⟩ := hfields
    obtain rfl : _ = running := hrun
    obtain rfl : _ = prio := hprio
    rfl
  rw [heq]
  exact hout

end Kernel

end Stm32F407
