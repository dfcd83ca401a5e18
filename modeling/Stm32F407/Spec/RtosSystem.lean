import Stm32F407.Spec.RtosTasks

/-! The kernel with its tasks and interrupts. A task runs up to its next call of the
kernel, and interrupts come between any two calls. Beside it stands what a scheduler is
for, over time that does not wrap and without lists: which task waits for what until
when, and who may run. -/

namespace Stm32F407

/-- The interrupts, and what the running task calls. -/
inductive KernelEvent (τ ε : Type) where
  | tick
  | pendSV
  | yield
  | suspendAll
  | resumeAll (xYield : Bool)
  | delay (xTicksToWait : U32)
  | wait (e : ε) (xTicksToWait : U32)
  | signal (e : ε) (xYield : Bool)
  | create (pxTCB : τ) (uxPriority : ℕ)
  | delete (pxTCB : τ)
  | cleanUp
  | suspend (pxTCB : τ)
  | resume (pxTCB : τ)
  | resumeFromISR (pxTCB : τ) (xYield : Bool)

namespace Kernel

variable {τ ε : Type} [DecidableEq τ] [DecidableEq ε]

abbrev stateOf (k : Kernel τ ε) (t : τ) : Option (TaskList ε) := k.lists.pxContainer (.xStateListItem t)

abbrev eventOf (k : Kernel τ ε) (t : τ) : Option (TaskList ε) := k.lists.pxContainer (.xEventListItem t)

abbrev timeOf (k : Kernel τ ε) (t : τ) : U32 := k.lists.xItemValue (.item (.xStateListItem t))

def Exists (k : Kernel τ ε) (t : τ) : Prop :=
  k.stateOf t ≠ none ∧ k.stateOf t ≠ some .xTasksWaitingTermination

instance (k : Kernel τ ε) (t : τ) : Decidable (k.Exists t) :=
  inferInstanceAs (Decidable (k.stateOf t ≠ none ∧ k.stateOf t ≠ some .xTasksWaitingTermination))

/-- The running task has not blocked, suspended or deleted itself. A switch may be
pending: in a critical section the task goes on until its end. -/
def Runs (k : Kernel τ ε) : Prop := k.stateOf k.pxCurrentTCB = some (k.readyList k.pxCurrentTCB)

instance (k : Kernel τ ε) : Decidable k.Runs :=
  inferInstanceAs (Decidable (k.stateOf k.pxCurrentTCB = some (k.readyList k.pxCurrentTCB)))

/-- When an event can come. A task blocks between `vTaskSuspendAll` and `xTaskResumeAll`
and yields if the latter has not, as in `vTaskDelay` and `xQueueReceive`; the idle task
does not block; a task that ends or suspends itself has not suspended the scheduler; and
the ticks held back while it is suspended, and how often it is, fit into their counters. -/
def Enabled (idle : τ) (k : Kernel τ ε) : KernelEvent τ ε → Prop
  | .tick => k.uxSchedulerSuspended ≠ 0 → k.xPendedTicks ≠ portMAX_DELAY
  | .pendSV => k.pendSV = true
  | .yield => k.Runs
  | .suspendAll => k.Runs ∧ k.uxSchedulerSuspended.toNat + 1 < 2 ^ 32
  | .resumeAll xYield => 0 < k.uxSchedulerSuspended ∧ (k.Runs ∨ xYield = true)
  | .delay xTicksToWait =>
      k.Runs ∧ 0 < k.uxSchedulerSuspended ∧ k.pxCurrentTCB ≠ idle ∧ xTicksToWait ≠ 0
  | .wait _ xTicksToWait =>
      k.Runs ∧ 0 < k.uxSchedulerSuspended ∧ k.pxCurrentTCB ≠ idle ∧ xTicksToWait ≠ 0
  | .signal e _ => k.lists.listLIST_IS_EMPTY (.pxEventList e) = false
  | .create pxTCB _ => k.Runs ∧ k.stateOf pxTCB = none
  | .delete pxTCB =>
      k.Runs ∧ k.Exists pxTCB ∧ pxTCB ≠ idle ∧
        (pxTCB = k.pxCurrentTCB → k.uxSchedulerSuspended = 0)
  | .cleanUp => k.Runs ∧ k.pxCurrentTCB = idle
  | .suspend pxTCB =>
      k.Runs ∧ k.Exists pxTCB ∧ pxTCB ≠ idle ∧
        (pxTCB = k.pxCurrentTCB → k.uxSchedulerSuspended = 0)
  | .resume _ => k.Runs
  | .resumeFromISR _ _ => True

instance (idle : τ) (k : Kernel τ ε) : (ev : KernelEvent τ ε) → Decidable (k.Enabled idle ev)
  | .tick => inferInstanceAs (Decidable (k.uxSchedulerSuspended ≠ 0 → k.xPendedTicks ≠ portMAX_DELAY))
  | .pendSV => inferInstanceAs (Decidable (k.pendSV = true))
  | .yield => inferInstanceAs (Decidable k.Runs)
  | .suspendAll => inferInstanceAs (Decidable (k.Runs ∧ k.uxSchedulerSuspended.toNat + 1 < 2 ^ 32))
  | .resumeAll xYield => inferInstanceAs (Decidable
      (0 < k.uxSchedulerSuspended ∧ (k.Runs ∨ xYield = true)))
  | .delay xTicksToWait => inferInstanceAs (Decidable
      (k.Runs ∧ 0 < k.uxSchedulerSuspended ∧ k.pxCurrentTCB ≠ idle ∧ xTicksToWait ≠ 0))
  | .wait _ xTicksToWait => inferInstanceAs (Decidable
      (k.Runs ∧ 0 < k.uxSchedulerSuspended ∧ k.pxCurrentTCB ≠ idle ∧ xTicksToWait ≠ 0))
  | .signal e _ => inferInstanceAs (Decidable (k.lists.listLIST_IS_EMPTY (.pxEventList e) = false))
  | .create pxTCB _ => inferInstanceAs (Decidable (k.Runs ∧ k.stateOf pxTCB = none))
  | .delete pxTCB => inferInstanceAs (Decidable (k.Runs ∧ k.Exists pxTCB ∧ pxTCB ≠ idle ∧
      (pxTCB = k.pxCurrentTCB → k.uxSchedulerSuspended = 0)))
  | .cleanUp => inferInstanceAs (Decidable (k.Runs ∧ k.pxCurrentTCB = idle))
  | .suspend pxTCB => inferInstanceAs (Decidable (k.Runs ∧ k.Exists pxTCB ∧ pxTCB ≠ idle ∧
      (pxTCB = k.pxCurrentTCB → k.uxSchedulerSuspended = 0)))
  | .resume _ => inferInstanceAs (Decidable k.Runs)
  | .resumeFromISR _ _ => inferInstanceAs (Decidable True)

/-- `portYIELD` if the function has asked for it and the caller heeds it. -/
def yieldIf (xYield : Bool) (out : Bool × Kernel τ ε) : Kernel τ ε :=
  if out.1 && xYield then out.2.portYIELD else out.2

def next (k : Kernel τ ε) : KernelEvent τ ε → Kernel τ ε
  | .tick => k.xPortSysTickHandler
  | .pendSV => k.xPortPendSVHandler
  | .yield => k.portYIELD
  | .suspendAll => k.vTaskSuspendAll
  | .resumeAll xYield =>
      let (xAlreadyYielded, k) := k.xTaskResumeAll
      if xAlreadyYielded = false ∧ xYield then k.portYIELD else k
  | .delay xTicksToWait => k.prvAddCurrentTaskToDelayedList xTicksToWait false
  | .wait e xTicksToWait => k.vTaskPlaceOnEventList e xTicksToWait
  | .signal e xYield => yieldIf xYield (k.xTaskRemoveFromEventList e)
  | .create pxTCB uxPriority => k.xTaskCreate uxPriority pxTCB
  | .delete pxTCB => k.vTaskDelete pxTCB
  | .cleanUp => k.prvCheckTasksWaitingTermination
  | .suspend pxTCB => k.vTaskSuspend pxTCB
  | .resume pxTCB => k.vTaskResume pxTCB
  | .resumeFromISR pxTCB xYield => yieldIf xYield (k.xTaskResumeFromISR pxTCB)

/-- The scheduler started after the creation of the tasks `first` and `more`, each with
its priority. -/
def boot (lists : TaskLists τ ε) (priorities : τ → Fin 5) (first : τ × ℕ) (more : List (τ × ℕ))
    (idle timer : τ) : Kernel τ ε :=
  (more.foldl (fun k task => k.xTaskCreate task.2 task.1)
    (start lists priorities first.2 first.1)).vTaskStartScheduler idle timer

/-- Memory in which no item is in a list yet, and the event lists are initialised. -/
structure Fresh (m : TaskLists τ ε) : Prop where
  items : ∀ i, m.pxContainer i = none
  events : ∀ e, m.IsInitialised (.pxEventList e)

def Step (idle : τ) (k : Kernel τ ε) (ev : KernelEvent τ ε) (k' : Kernel τ ε) : Prop :=
  k.Enabled idle ev ∧ k' = k.next ev

end Kernel

/-- What a task does: `blocked e wake` waits for `e`, if there is one, until `wake`, if
there is an end to it; `woken` will be ready when the scheduler resumes. -/
inductive TaskState (ε : Type) where
  | absent
  | ready
  | blocked (e : Option ε) (wake : Option ℕ)
  | woken (wake : Option ℕ)
  | deleted
  deriving DecidableEq

/-- The task is ready at the time `n` if it was to wait no longer. -/
def TaskState.at {ε : Type} (n : ℕ) : TaskState ε → TaskState ε
  | .blocked e (some wake) => if wake ≤ n then .ready else .blocked e (some wake)
  | .woken (some wake) => if wake ≤ n then .ready else .woken (some wake)
  | s => s

def TaskState.resumed {ε : Type} : TaskState ε → TaskState ε
  | .woken _ => .ready
  | s => s

/-- A task that waits is readied, or marked while the scheduler is suspended. -/
def TaskState.wakeUp {ε : Type} (suspended : Bool) : TaskState ε → TaskState ε
  | .blocked _ wake => if suspended then .woken wake else .ready
  | s => s

/-- `pended` are the ticks held back, and `depth` how often the scheduler is suspended. -/
structure Sched (τ ε : Type) where
  now : ℕ
  pended : ℕ
  depth : ℕ
  running : τ
  prio : τ → Fin 5
  task : τ → TaskState ε

namespace Sched

variable {τ ε : Type} [DecidableEq τ] [DecidableEq ε]

/-- The scheduler as it starts with `tasks`. -/
def booted (k : Kernel τ ε) (tasks : List τ) : Sched τ ε :=
  { now := 0, pended := 0, depth := 0, running := k.pxCurrentTCB, prio := k.uxPriority
    task := fun t => if t ∈ tasks then .ready else .absent }

def advance (a : Sched τ ε) : Sched τ ε :=
  { a with now := a.now + 1, task := fun t => (a.task t).at (a.now + 1) }

def tick (a : Sched τ ε) : Sched τ ε :=
  if a.depth = 0 then a.advance else { a with pended := a.pended + 1 }

def resumeAll (a : Sched τ ε) : Sched τ ε :=
  if a.depth - 1 = 0 then
    { (advance^[a.pended] { a with task := fun t => (a.task t).resumed }) with depth := 0, pended := 0 }
  else { a with depth := a.depth - 1 }

def set (a : Sched τ ε) (t : τ) (s : TaskState ε) : Sched τ ε :=
  { a with task := Function.update a.task t s }

def wakeUp (a : Sched τ ε) (t : τ) : Sched τ ε := a.set t ((a.task t).wakeUp (a.depth ≠ 0))

/-- A ready task that no ready task has a higher priority than. -/
def IsTop (a : Sched τ ε) (t : τ) : Prop :=
  a.task t = .ready ∧ ∀ t', a.task t' = .ready → a.prio t' ≤ a.prio t

/-- A task that waits for `e`, and none that does has a higher priority. -/
def IsFirst (a : Sched τ ε) (e : ε) (t : τ) : Prop :=
  (∃ wake, a.task t = .blocked (some e) wake) ∧
    ∀ t' wake, a.task t' = .blocked (some e) wake → a.prio t' ≤ a.prio t

def Step (a : Sched τ ε) : KernelEvent τ ε → Sched τ ε → Prop
  | .tick, a' => a' = a.tick
  | .pendSV, a' => if a.depth = 0 then ∃ t, a.IsTop t ∧ a' = { a with running := t } else a' = a
  | .yield, a' => a' = a
  | .suspendAll, a' => a' = { a with depth := a.depth + 1 }
  | .resumeAll _, a' => a' = a.resumeAll
  | .delay d, a' => a' = a.set a.running (.blocked none (some (a.now + d.toNat)))
  | .wait e d, a' =>
      a' = a.set a.running
        (.blocked (some e) (if d = portMAX_DELAY then none else some (a.now + d.toNat)))
  | .signal e _, a' => ∃ t, a.IsFirst e t ∧ a' = a.wakeUp t
  | .create t p, a' =>
      a' = { a.set t .ready with prio := Function.update a.prio t (Kernel.clamp p) }
  | .delete t, a' => a' = a.set t (if t = a.running then .deleted else .absent)
  | .cleanUp, a' =>
      (∃ t, a.task t = .deleted ∧ a' = a.set t .absent) ∨ (a' = a ∧ ∀ t, a.task t ≠ .deleted)
  | .suspend t, a' => a' = a.set t (.blocked none none)
  | .resume t, a' =>
      a' = if t ≠ a.running ∧ a.task t = .blocked none none then a.set t .ready else a
  | .resumeFromISR t _, a' => a' = if a.task t = .blocked none none then a.wakeUp t else a

end Sched

end Stm32F407
