import Stm32F407.Proofs.RtosBoot

/-! What the kernel guarantees in every run from its start: it refines the scheduler, the
task that runs has the highest priority, and tasks wake when their time has come. -/

namespace Stm32F407

open Lib Sched

variable {τ ε : Type}

namespace Kernel

variable {k k' : Kernel τ ε} {a : Sched τ ε} {idle timer : τ} {ev block : KernelEvent τ ε}
  {evs evs' : List (KernelEvent τ ε)} {m : TaskLists τ ε} {first : τ × ℕ} {more : List (τ × ℕ)}
  {priorities : τ → Fin 5} {d : U32} {t : τ} {e : Option ε} {w : ℕ}

theorem legal (h : Refines idle k a) (hen : k.Enabled idle ev) : a.Legal ev := by
  have hcur : k.Runs → a.task a.running = .ready := by
    intro hruns
    have hready := (ready_iff h k.pxCurrentTCB).mpr hruns
    rwa [h.running] at hready
  cases ev with
  | delay d => exact hcur hen.1
  | wait e d => exact hcur hen.1
  | create t p => exact ((h.view.task t).absent_iff h.view.sound).mpr hen.2
  | _ => trivial

variable [DecidableEq τ] [DecidableEq ε]

/-- Every run of the kernel from its start is one of the scheduler. -/
theorem kernel_refines (hm : Fresh m) (hnd : (idle :: timer :: first.1 :: more.map Prod.fst).Nodup)
    (hrun : Run (Step idle) (boot m priorities first more idle timer) evs k) :
    ∃ a, Run Sched.Step (Sched.booted (boot m priorities first more idle timer)
        (idle :: timer :: first.1 :: more.map Prod.fst)) evs a ∧ Refines idle k a :=
  hrun.simulate (boot_refines hm priorities first more hnd) fun _ _ _ _ href hstep =>
    step_refines href hstep

/-- The tasks of `main.c`, and those of the scheduler. -/
inductive MainTask where
  | idle
  | timer
  | start_task
  | task1
  | task2
  | task3
  deriving DecidableEq

def blankLists : TaskLists MainTask Unit :=
  { pxNext := id, pxPrevious := id, xItemValue := fun _ => portMAX_DELAY
    pxContainer := fun _ => none, pxIndex := ListNode.xListEnd, uxNumberOfItems := fun _ => 0 }

theorem blankLists_fresh : Fresh blankLists :=
  ⟨fun _ => rfl, fun _ => ⟨rfl, rfl, rfl, rfl, rfl⟩⟩

def mainStarted : Kernel MainTask Unit :=
  boot blankLists (fun _ => clamp 0) (.start_task, 1) [] .idle .timer

/-- The timer task blocks, and `start_task` creates the others and deletes itself in one
critical section: the switch that `task1` asks for is pending until its end. -/
def startTask : List (KernelEvent MainTask Unit) :=
  [.suspendAll, .wait () portMAX_DELAY, .resumeAll true, .pendSV,
    .create .task1 2, .create .task2 3, .create .task3 4, .delete .start_task, .pendSV]

def afterStartTask : Kernel MainTask Unit := startTask.foldl next mainStarted

theorem startTask_run : Run (Step .idle) mainStarted startTask afterStartTask := by
  have hadm : Admitted next (Enabled .idle) mainStarted startTask := by decide +kernel
  exact Run.of_admitted (fun _ _ h => ⟨h, rfl⟩) hadm

-- `start_task` goes on to create `task2` while the switch to `task1` is pending.
example : ((startTask.take 5).foldl next mainStarted).pendSV = true ∧
    ((startTask.take 5).foldl next mainStarted).Enabled .idle (.create .task2 3) := by
  decide +kernel

theorem kernel_refines_startTask : ∃ a,
    Run Sched.Step (Sched.booted mainStarted [.idle, .timer, .start_task]) startTask a ∧
      Refines .idle afterStartTask a :=
  kernel_refines blankLists_fresh (by decide) startTask_run

/-- When no switch is pending, in PendSV or in `xYieldPending`, the task that runs is ready, no
ready task has a higher priority, and the bit map tells which ready lists have tasks. -/
theorem runs_highest (hm : Fresh m) (hnd : (idle :: timer :: first.1 :: more.map Prod.fst).Nodup)
    (hrun : Run (Step idle) (boot m priorities first more idle timer) evs k)
    (hs : k.uxSchedulerSuspended = 0) (hp : k.pendSV = false) (hy : k.xYieldPending = false) :
    k.IsTop k.pxCurrentTCB ∧ ∀ p : Fin 5, k.uxTopReadyPriority.getLsbD p = true ↔
      ∃ t, k.uxPriority t = p ∧ k.stateOf t = some (.pxReadyTasksLists p) := by
  obtain ⟨a, -, h⟩ := hrun.simulate (boot_refines hm priorities first more hnd) fun _ _ _ _ href hstep =>
    step_refines href hstep
  refine ⟨(isTop_iff h _).mpr ?_, fun p => (h.view.sound.bits p).trans ?_⟩
  · rw [h.running]
    exact ⟨h.runs hp (h.resumed_iff.mp hs), h.top hp hy⟩
  · exact exists_congr fun t => ⟨fun ht => ⟨h.view.sound.prio t p ht, ht⟩, And.right⟩

theorem runs_highest_startTask : afterStartTask.pxCurrentTCB = .task3 ∧ afterStartTask.IsTop .task3 ∧
    ∀ p : Fin 5, afterStartTask.uxTopReadyPriority.getLsbD p = true ↔
      ∃ t, afterStartTask.uxPriority t = p ∧ afterStartTask.stateOf t = some (.pxReadyTasksLists p) := by
  have hcur : afterStartTask.pxCurrentTCB = .task3 := by decide +kernel
  obtain ⟨htop, hbits⟩ := runs_highest blankLists_fresh (by decide) startTask_run (by decide +kernel)
    (by decide +kernel) (by decide +kernel)
  exact ⟨hcur, hcur ▸ htop, hbits⟩

def BlocksFor (e : Option ε) (d : U32) : KernelEvent τ ε → Prop
  | .delay d' => d' = d ∧ e = none
  | .wait e' d' => d' = d ∧ e = some e' ∧ d ≠ portMAX_DELAY
  | _ => False

theorem block_step {block : KernelEvent τ ε} {a' : Sched τ ε} (hblock : BlocksFor e d block)
    (hstep : a.Step block a') (hd : d ≠ 0) :
    a'.task a.running = .blocked e (some (a.now + d.toNat)) ∧ a'.now < a.now + d.toNat ∧
      a'.now = a.now ∧ a'.pended = a.pended := by
  have hpos : 0 < d.toNat := Nat.pos_of_ne_zero fun hz => hd (BitVec.eq_of_toNat_eq hz)
  cases block with
  | delay d' =>
    obtain ⟨rfl, rfl⟩ := hblock
    obtain rfl : a' = _ := hstep
    exact ⟨set_self _ _ _, Nat.lt_add_of_pos_right hpos, rfl, rfl⟩
  | wait e' d' =>
    obtain ⟨rfl, rfl, hmax⟩ := hblock
    obtain rfl : a' = _ := hstep
    rw [if_neg hmax]
    exact ⟨set_self _ _ _, Nat.lt_add_of_pos_right hpos, rfl, rfl⟩
  | _ => cases hblock

/-- A blocked task through a run in which it is not readied before the last event. -/
theorem blocked_run {k₁ : Kernel τ ε} {a₁ : Sched τ ε} (h : Refines idle k₁ a₁)
    (ht : a₁.task t = .blocked e (some w)) (hw : a₁.now < w)
    (hrun : Run (Guarded (Step idle) fun k _ => k.stateOf t ≠ some (k.readyList t)) k₁ evs k')
    (hev : ∀ ev ∈ evs, ¬ Sched.Disturbs t e ev) :
    ∃ a', Refines idle k' a' ∧ a'.now + a'.pended = a₁.now + a₁.pended + evs.countP Sched.isTick ∧
      (a'.task t = .blocked e (some w) ∧ a'.now < w ∨ a'.task t = .ready ∧ w ≤ a'.now) := by
  induction hrun with
  | nil => exact ⟨a₁, h, rfl, Or.inl ⟨ht, hw⟩⟩
  | snoc _ hstep ih =>
    obtain ⟨a, href, hcount, hstate⟩ := ih fun ev hmem => hev ev (List.mem_append_left _ hmem)
    obtain ⟨hnot, hen, rfl⟩ := hstep
    have hblocked := hstate.resolve_right fun hready => hnot ((ready_iff href t).mp hready.1)
    obtain ⟨a', hastep, href'⟩ := step_refines href ⟨hen, rfl⟩
    refine ⟨a', href', ?_, Sched.step_blocked hastep (legal href hen) hblocked.1 hblocked.2
      (hev _ (by simp))⟩
    rw [Sched.step_ticks hastep, hcount, List.countP_append, List.countP_singleton]
    cases Sched.isTick _ <;> simp [Nat.add_assoc]

/-- A task that delays itself, or waits for an event that does not come, becomes ready with
the tick at which its time has passed and not before, whether the tick count wraps in
between and however long ticks are held back. -/
theorem wakes_on_time (hm : Fresh m) (hnd : (idle :: timer :: first.1 :: more.map Prod.fst).Nodup)
    (hrun : Run (Step idle) (boot m priorities first more idle timer) evs k)
    (hblock : BlocksFor e d block) (hen : k.Enabled idle block)
    (hrun' : Run (Guarded (Step idle) fun k' _ =>
      k'.stateOf k.pxCurrentTCB ≠ some (k'.readyList k.pxCurrentTCB)) (k.next block) evs' k')
    (hev : ∀ ev ∈ evs', ¬ Sched.Disturbs k.pxCurrentTCB e ev) :
    k'.stateOf k.pxCurrentTCB = some (k'.readyList k.pxCurrentTCB) ↔
      d.toNat + k'.xPendedTicks.toNat ≤ k.xPendedTicks.toNat + evs'.countP Sched.isTick := by
  obtain ⟨a, -, h⟩ := hrun.simulate (boot_refines hm priorities first more hnd) fun _ _ _ _ href hstep =>
    step_refines href hstep
  have hd : d ≠ 0 := by
    cases block with
    | delay d' =>
      obtain ⟨rfl, -⟩ := hblock
      exact hen.2.2.2
    | wait e' d' =>
      obtain ⟨rfl, -⟩ := hblock
      exact hen.2.2.2
    | _ => cases hblock
  obtain ⟨a₁, hstep, h₁⟩ := step_refines h ⟨hen, rfl⟩
  obtain ⟨ht, hw, hnow, hpended⟩ := block_step hblock hstep hd
  rw [← h.running] at ht
  obtain ⟨a', h', hcount, hstate⟩ := blocked_run h₁ ht hw hrun' hev
  rw [← ready_iff h', h'.pended, h.pended]
  rw [hnow, hpended] at hcount
  rcases hstate with ⟨hs, hlt⟩ | ⟨hs, hle⟩
  · rw [hs]
    refine iff_of_false (by simp) ?_
    omega
  · refine iff_of_true hs ?_
    omega

def task3Delays : List (KernelEvent MainTask Unit) := [.resumeAll true, .pendSV, .tick, .tick]

theorem wakes_on_time_startTask :
    (task3Delays.foldl next ((afterStartTask.next .suspendAll).next (.delay 2))).stateOf .task3 =
      some (.pxReadyTasksLists (Fin.last 4)) := by
  have hrun := startTask_run.snoc ⟨(by decide +kernel : afterStartTask.Enabled .idle .suspendAll), rfl⟩
  have hcur : (afterStartTask.next .suspendAll).pxCurrentTCB = .task3 := by decide +kernel
  have hadm : Admitted next (fun k' ev =>
      k'.stateOf (afterStartTask.next .suspendAll).pxCurrentTCB ≠
        some (k'.readyList (afterStartTask.next .suspendAll).pxCurrentTCB) ∧ k'.Enabled .idle ev)
      ((afterStartTask.next .suspendAll).next (.delay 2)) task3Delays := by
    decide +kernel
  have hblock : BlocksFor (none : Option Unit) 2 (.delay 2 : KernelEvent MainTask Unit) :=
    ⟨rfl, rfl⟩
  have hready := (wakes_on_time blankLists_fresh (by decide) hrun hblock (by decide +kernel)
    (Run.of_admitted (fun _ _ h => ⟨h.1, h.2, rfl⟩) hadm)
    (by simp [task3Delays, Sched.Disturbs])).mpr (by decide +kernel)
  rw [hcur] at hready
  exact hready.trans (by decide +kernel)

end Kernel

end Stm32F407
