import Stm32F407.Spec.RtosList

/-! The scheduler of `tasks.c` as `FreeRTOSConfig.h` sets it up: preemption and time
slicing, five priorities, task selection by the bit map of the port, ticks of 32 bits.
`τ` are the task control blocks and `ε` the event lists of the kernel objects. The
critical sections are atomic, and `configASSERT` is empty. Mutexes and notifications are
left out. -/

namespace Stm32F407

inductive TaskItem (τ : Type) where
  | xStateListItem (pxTCB : τ)
  | xEventListItem (pxTCB : τ)
  deriving DecidableEq

inductive TaskList (ε : Type) where
  | pxReadyTasksLists (uxPriority : Fin 5)
  | xDelayedTaskList1
  | xDelayedTaskList2
  | xPendingReadyList
  | xTasksWaitingTermination
  | xSuspendedTaskList
  | pxEventList (e : ε)
  deriving DecidableEq

abbrev TaskLists (τ ε : Type) := Lists (TaskList ε) (TaskItem τ)

/-- `pvOwner` of a node; the end marker has none. -/
def pvOwner {τ ε : Type} : ListNode (TaskList ε) (TaskItem τ) → Option τ
  | .xListEnd _ => none
  | .item (.xStateListItem pxTCB) => some pxTCB
  | .item (.xEventListItem pxTCB) => some pxTCB

/-- The variables of `tasks.c` and the PendSV bit of the port; `uxPriority` is the
field of the task control blocks. The two counts of tasks do not wrap: each task has its
control block in the memory. -/
structure Kernel (τ ε : Type) where
  lists : TaskLists τ ε
  uxPriority : τ → Fin 5
  pxCurrentTCB : τ
  pxDelayedTaskList : TaskList ε
  pxOverflowDelayedTaskList : TaskList ε
  uxTopReadyPriority : U32
  xTickCount : U32
  xNextTaskUnblockTime : U32
  uxSchedulerSuspended : U32
  xPendedTicks : U32
  xYieldPending : Bool
  xNumOfOverflows : U32
  xSchedulerRunning : Bool
  uxCurrentNumberOfTasks : ℕ
  uxDeletedTasksWaitingCleanUp : ℕ
  pendSV : Bool

namespace Kernel

variable {τ ε : Type} [DecidableEq τ] [DecidableEq ε]

def portYIELD (k : Kernel τ ε) : Kernel τ ε := { k with pendSV := true }

def portRECORD_READY_PRIORITY (k : Kernel τ ε) (uxPriority : Fin 5) : Kernel τ ε :=
  { k with uxTopReadyPriority := k.uxTopReadyPriority ||| BitVec.twoPow 32 uxPriority }

def portRESET_READY_PRIORITY (k : Kernel τ ε) (uxPriority : Fin 5) : Kernel τ ε :=
  { k with uxTopReadyPriority := k.uxTopReadyPriority &&& ~~~BitVec.twoPow 32 uxPriority }

/-- `31UL - __clz( uxReadyPriorities )`. -/
def portGET_HIGHEST_PRIORITY (uxReadyPriorities : U32) : U32 := 31 - uxReadyPriorities.clz

def readyList (k : Kernel τ ε) (pxTCB : τ) : TaskList ε := .pxReadyTasksLists (k.uxPriority pxTCB)

def taskRESET_READY_PRIORITY (k : Kernel τ ε) (uxPriority : Fin 5) : Kernel τ ε :=
  if k.lists.listCURRENT_LIST_LENGTH (.pxReadyTasksLists uxPriority) = 0 then
    k.portRESET_READY_PRIORITY uxPriority
  else k

def prvAddTaskToReadyList (k : Kernel τ ε) (pxTCB : τ) : Kernel τ ε :=
  let k := k.portRECORD_READY_PRIORITY (k.uxPriority pxTCB)
  { k with lists := k.lists.vListInsertEnd (k.readyList pxTCB) (.xStateListItem pxTCB) }

def listREMOVE_ITEM (k : Kernel τ ε) (pxItemToRemove : TaskItem τ) : Kernel τ ε :=
  { k with lists := k.lists.listREMOVE_ITEM pxItemToRemove }

/-- `listREMOVE_ITEM` if the task is in an event list. -/
def removeFromEventList (k : Kernel τ ε) (pxTCB : τ) : Kernel τ ε :=
  if k.lists.pxContainer (.xEventListItem pxTCB) ≠ none then
    k.listREMOVE_ITEM (.xEventListItem pxTCB)
  else k

def prvResetNextTaskUnblockTime (k : Kernel τ ε) : Kernel τ ε :=
  if k.lists.listLIST_IS_EMPTY k.pxDelayedTaskList then { k with xNextTaskUnblockTime := portMAX_DELAY }
  else
    { k with
      xNextTaskUnblockTime := k.lists.listGET_ITEM_VALUE_OF_HEAD_ENTRY k.pxDelayedTaskList }

def taskSWITCH_DELAYED_LISTS (k : Kernel τ ε) : Kernel τ ε :=
  prvResetNextTaskUnblockTime
    { k with
      pxDelayedTaskList := k.pxOverflowDelayedTaskList
      pxOverflowDelayedTaskList := k.pxDelayedTaskList
      xNumOfOverflows := k.xNumOfOverflows + 1 }

/-- The state list item of a task taken out of its list, as `vTaskDelete` and
`vTaskSuspend` begin. -/
def removeFromStateList (k : Kernel τ ε) (pxTCB : τ) : Kernel τ ε :=
  let (left, lists) := k.lists.uxListRemove (.xStateListItem pxTCB)
  let k := { k with lists := lists }
  if left = 0 then k.taskRESET_READY_PRIORITY (k.uxPriority pxTCB) else k

/-- The `for( ; ; )` of `xTaskIncrementTick`; it leaves the loop with the list of the
delayed tasks, so as many rounds as there are items and one more are enough. -/
def unblockTasks (k : Kernel τ ε) (xConstTickCount : U32) (xSwitchRequired : Bool) :
    ℕ → Bool × Kernel τ ε
  | 0 => (xSwitchRequired, k)
  | rounds + 1 =>
      if k.lists.listLIST_IS_EMPTY k.pxDelayedTaskList then
        (xSwitchRequired, { k with xNextTaskUnblockTime := portMAX_DELAY })
      else
        match pvOwner (k.lists.listGET_HEAD_ENTRY k.pxDelayedTaskList) with
        | none => (xSwitchRequired, k)
        | some pxTCB =>
            let xItemValue := k.lists.listGET_LIST_ITEM_VALUE (.xStateListItem pxTCB)
            if xConstTickCount < xItemValue then
              (xSwitchRequired, { k with xNextTaskUnblockTime := xItemValue })
            else
              let k := k.listREMOVE_ITEM (.xStateListItem pxTCB)
              let k := k.removeFromEventList pxTCB
              let k := k.prvAddTaskToReadyList pxTCB
              let xSwitchRequired :=
                xSwitchRequired || k.uxPriority k.pxCurrentTCB < k.uxPriority pxTCB
              k.unblockTasks xConstTickCount xSwitchRequired rounds

def xTaskIncrementTick (k : Kernel τ ε) : Bool × Kernel τ ε :=
  if k.uxSchedulerSuspended = 0 then
    let xConstTickCount := k.xTickCount + 1
    let k := { k with xTickCount := xConstTickCount }
    let k := if xConstTickCount = 0 then k.taskSWITCH_DELAYED_LISTS else k
    let (xSwitchRequired, k) :=
      if k.xNextTaskUnblockTime ≤ xConstTickCount then
        k.unblockTasks xConstTickCount false
          (k.lists.listCURRENT_LIST_LENGTH k.pxDelayedTaskList + 1)
      else (false, k)
    let xSwitchRequired :=
      xSwitchRequired || 1 < k.lists.listCURRENT_LIST_LENGTH (k.readyList k.pxCurrentTCB)
    (xSwitchRequired || k.xYieldPending, k)
  else (false, { k with xPendedTicks := k.xPendedTicks + 1 })

def xPortSysTickHandler (k : Kernel τ ε) : Kernel τ ε :=
  let (xSwitchRequired, k) := k.xTaskIncrementTick
  if xSwitchRequired then k.portYIELD else k

/-- The bit map never has a bit beyond the five priorities. -/
def taskSELECT_HIGHEST_PRIORITY_TASK (k : Kernel τ ε) : Kernel τ ε :=
  let uxTopPriority := portGET_HIGHEST_PRIORITY k.uxTopReadyPriority
  if h : uxTopPriority.toNat < 5 then
    let (pxEntry, lists) :=
      k.lists.listGET_OWNER_OF_NEXT_ENTRY (.pxReadyTasksLists ⟨uxTopPriority.toNat, h⟩)
    match pvOwner pxEntry with
    | none => { k with lists := lists }
    | some pxTCB => { k with lists := lists, pxCurrentTCB := pxTCB }
  else k

def vTaskSwitchContext (k : Kernel τ ε) : Kernel τ ε :=
  if k.uxSchedulerSuspended ≠ 0 then { k with xYieldPending := true }
  else { k with xYieldPending := false }.taskSELECT_HIGHEST_PRIORITY_TASK

def xPortPendSVHandler (k : Kernel τ ε) : Kernel τ ε := { k with pendSV := false }.vTaskSwitchContext

def vTaskSuspendAll (k : Kernel τ ε) : Kernel τ ε :=
  { k with uxSchedulerSuspended := k.uxSchedulerSuspended + 1 }

/-- The `while` loop of `xTaskResumeAll`, with whether it has moved a task. -/
def movePendingReady (k : Kernel τ ε) (moved : Bool) : ℕ → Bool × Kernel τ ε
  | 0 => (moved, k)
  | rounds + 1 =>
      if k.lists.listLIST_IS_EMPTY .xPendingReadyList then (moved, k)
      else
        match pvOwner (k.lists.listGET_HEAD_ENTRY .xPendingReadyList) with
        | none => (moved, k)
        | some pxTCB =>
            let k := k.listREMOVE_ITEM (.xEventListItem pxTCB)
            let k := k.listREMOVE_ITEM (.xStateListItem pxTCB)
            let k := k.prvAddTaskToReadyList pxTCB
            let xYieldPending :=
              k.xYieldPending || k.uxPriority k.pxCurrentTCB ≤ k.uxPriority pxTCB
            { k with xYieldPending := xYieldPending }.movePendingReady true rounds

/-- The `do` loop of `xTaskResumeAll` over the ticks that came while the scheduler was
suspended. -/
def processPendedTicks (k : Kernel τ ε) : ℕ → Kernel τ ε
  | 0 => k
  | xPendedCounts + 1 =>
      let (xSwitchRequired, k) := k.xTaskIncrementTick
      { k with xYieldPending := k.xYieldPending || xSwitchRequired }.processPendedTicks xPendedCounts

/-- `xAlreadyYielded` and the state. -/
def xTaskResumeAll (k : Kernel τ ε) : Bool × Kernel τ ε :=
  let k := { k with uxSchedulerSuspended := k.uxSchedulerSuspended - 1 }
  if k.uxSchedulerSuspended = 0 then
    if 0 < k.uxCurrentNumberOfTasks then
      let (moved, k) :=
        k.movePendingReady false (k.lists.listCURRENT_LIST_LENGTH .xPendingReadyList + 1)
      let k := if moved then k.prvResetNextTaskUnblockTime else k
      let k := { k.processPendedTicks k.xPendedTicks.toNat with xPendedTicks := 0 }
      if k.xYieldPending then (true, k.portYIELD) else (false, k)
    else (false, k)
  else (false, k)

def prvAddCurrentTaskToDelayedList (k : Kernel τ ε) (xTicksToWait : U32)
    (xCanBlockIndefinitely : Bool) : Kernel τ ε :=
  let pxTCB := k.pxCurrentTCB
  let xConstTickCount := k.xTickCount
  let (left, lists) := k.lists.uxListRemove (.xStateListItem pxTCB)
  let k := { k with lists := lists }
  let k := if left = 0 then k.portRESET_READY_PRIORITY (k.uxPriority pxTCB) else k
  if xTicksToWait = portMAX_DELAY ∧ xCanBlockIndefinitely then
    { k with lists := k.lists.vListInsertEnd .xSuspendedTaskList (.xStateListItem pxTCB) }
  else
    let xTimeToWake := xConstTickCount + xTicksToWait
    let k := { k with lists := k.lists.listSET_LIST_ITEM_VALUE (.xStateListItem pxTCB) xTimeToWake }
    if xTimeToWake < xConstTickCount then
      { k with lists := k.lists.vListInsert k.pxOverflowDelayedTaskList (.xStateListItem pxTCB) }
    else
      let k := { k with lists := k.lists.vListInsert k.pxDelayedTaskList (.xStateListItem pxTCB) }
      if xTimeToWake < k.xNextTaskUnblockTime then { k with xNextTaskUnblockTime := xTimeToWake } else k

def vTaskPlaceOnEventList (k : Kernel τ ε) (e : ε) (xTicksToWait : U32) : Kernel τ ε :=
  let k := { k with lists := k.lists.vListInsert (.pxEventList e) (.xEventListItem k.pxCurrentTCB) }
  k.prvAddCurrentTaskToDelayedList xTicksToWait true

/-- Whether the task woken has a higher priority than the running one. -/
def xTaskRemoveFromEventList (k : Kernel τ ε) (e : ε) : Bool × Kernel τ ε :=
  match pvOwner (k.lists.listGET_HEAD_ENTRY (.pxEventList e)) with
  | none => (false, k)
  | some pxUnblockedTCB =>
      let k := k.listREMOVE_ITEM (.xEventListItem pxUnblockedTCB)
      let k :=
        if k.uxSchedulerSuspended = 0 then
          (k.listREMOVE_ITEM (.xStateListItem pxUnblockedTCB)).prvAddTaskToReadyList pxUnblockedTCB
        else
          { k with lists :=
              k.lists.vListInsertEnd .xPendingReadyList (.xEventListItem pxUnblockedTCB) }
      if k.uxPriority k.pxCurrentTCB < k.uxPriority pxUnblockedTCB then
        (true, { k with xYieldPending := true })
      else (false, k)

def prvInitialiseTaskLists (k : Kernel τ ε) : Kernel τ ε :=
  let lists := (List.finRange 5).foldl (fun m p => m.vListInitialise (.pxReadyTasksLists p)) k.lists
  let lists := lists.vListInitialise .xDelayedTaskList1
  let lists := lists.vListInitialise .xDelayedTaskList2
  let lists := lists.vListInitialise .xPendingReadyList
  let lists := lists.vListInitialise .xTasksWaitingTermination
  let lists := lists.vListInitialise .xSuspendedTaskList
  { k with
    lists := lists
    pxDelayedTaskList := .xDelayedTaskList1
    pxOverflowDelayedTaskList := .xDelayedTaskList2 }

/-- A priority that is too high is taken for the highest one. -/
abbrev clamp (uxPriority : ℕ) : Fin 5 := if h : uxPriority < 5 then ⟨uxPriority, h⟩ else 4

/-- The fields of the new task that the scheduler uses. -/
def prvInitialiseNewTask (k : Kernel τ ε) (uxPriority : ℕ) (pxNewTCB : τ) : Kernel τ ε :=
  let uxPriority := clamp uxPriority
  let lists := k.lists.vListInitialiseItem (.xStateListItem pxNewTCB)
  let lists := lists.vListInitialiseItem (.xEventListItem pxNewTCB)
  let lists :=
    lists.listSET_LIST_ITEM_VALUE (.xEventListItem pxNewTCB) (5 - BitVec.ofNat 32 uxPriority)
  { k with lists := lists, uxPriority := Function.update k.uxPriority pxNewTCB uxPriority }

/-- A task other than the first one. -/
def prvAddNewTaskToReadyList (k : Kernel τ ε) (pxNewTCB : τ) : Kernel τ ε :=
  let k := { k with uxCurrentNumberOfTasks := k.uxCurrentNumberOfTasks + 1 }
  let k :=
    if k.xSchedulerRunning = false ∧ k.uxPriority k.pxCurrentTCB ≤ k.uxPriority pxNewTCB then
      { k with pxCurrentTCB := pxNewTCB }
    else k
  let k := k.prvAddTaskToReadyList pxNewTCB
  if k.xSchedulerRunning ∧ k.uxPriority k.pxCurrentTCB < k.uxPriority pxNewTCB then k.portYIELD else k

def xTaskCreate (k : Kernel τ ε) (uxPriority : ℕ) (pxNewTCB : τ) : Kernel τ ε :=
  (k.prvInitialiseNewTask uxPriority pxNewTCB).prvAddNewTaskToReadyList pxNewTCB

/-- With the task itself as the one deleted the caller does not come back. -/
def vTaskDelete (k : Kernel τ ε) (pxTCB : τ) : Kernel τ ε :=
  let k := (k.removeFromStateList pxTCB).removeFromEventList pxTCB
  if pxTCB = k.pxCurrentTCB then
    let k :=
      { k with
        lists := k.lists.vListInsertEnd .xTasksWaitingTermination (.xStateListItem pxTCB)
        uxDeletedTasksWaitingCleanUp := k.uxDeletedTasksWaitingCleanUp + 1 }
    if k.xSchedulerRunning then k.portYIELD else k
  else
    { k with uxCurrentNumberOfTasks := k.uxCurrentNumberOfTasks - 1 }.prvResetNextTaskUnblockTime

/-- One round of the `while` loop, in the idle task. -/
def prvCheckTasksWaitingTermination (k : Kernel τ ε) : Kernel τ ε :=
  if 0 < k.uxDeletedTasksWaitingCleanUp then
    match pvOwner (k.lists.listGET_HEAD_ENTRY .xTasksWaitingTermination) with
    | none => k
    | some pxTCB =>
        { k with
          lists := (k.lists.uxListRemove (.xStateListItem pxTCB)).2
          uxCurrentNumberOfTasks := k.uxCurrentNumberOfTasks - 1
          uxDeletedTasksWaitingCleanUp := k.uxDeletedTasksWaitingCleanUp - 1 }
  else k

/-- With the scheduler running. -/
def vTaskSuspend (k : Kernel τ ε) (pxTCB : τ) : Kernel τ ε :=
  let k := (k.removeFromStateList pxTCB).removeFromEventList pxTCB
  let k := { k with lists := k.lists.vListInsertEnd .xSuspendedTaskList (.xStateListItem pxTCB) }
  let k := k.prvResetNextTaskUnblockTime
  if pxTCB = k.pxCurrentTCB then k.portYIELD else k

def prvTaskIsTaskSuspended (k : Kernel τ ε) (xTask : τ) : Bool :=
  k.lists.pxContainer (.xStateListItem xTask) = some .xSuspendedTaskList ∧
    k.lists.pxContainer (.xEventListItem xTask) ≠ some .xPendingReadyList ∧
    k.lists.pxContainer (.xEventListItem xTask) = none

def vTaskResume (k : Kernel τ ε) (pxTCB : τ) : Kernel τ ε :=
  if pxTCB ≠ k.pxCurrentTCB then
    if k.prvTaskIsTaskSuspended pxTCB then
      let k := (k.listREMOVE_ITEM (.xStateListItem pxTCB)).prvAddTaskToReadyList pxTCB
      if k.uxPriority k.pxCurrentTCB ≤ k.uxPriority pxTCB then k.portYIELD else k
    else k
  else k

/-- Whether the interrupt should request a context switch, and the state. -/
def xTaskResumeFromISR (k : Kernel τ ε) (pxTCB : τ) : Bool × Kernel τ ε :=
  if k.prvTaskIsTaskSuspended pxTCB then
    if k.uxSchedulerSuspended = 0 then
      let xYieldRequired : Bool := k.uxPriority k.pxCurrentTCB ≤ k.uxPriority pxTCB
      let k := { k with xYieldPending := k.xYieldPending || xYieldRequired }
      (xYieldRequired, (k.listREMOVE_ITEM (.xStateListItem pxTCB)).prvAddTaskToReadyList pxTCB)
    else
      (false, { k with lists := k.lists.vListInsertEnd .xPendingReadyList (.xEventListItem pxTCB) })
  else (false, k)

/-- `vTaskStartScheduler` with the idle task and the timer task that it creates. -/
def vTaskStartScheduler (k : Kernel τ ε) (idle timer : τ) : Kernel τ ε :=
  { (k.xTaskCreate 0 idle).xTaskCreate 4 timer with
    xNextTaskUnblockTime := portMAX_DELAY
    xSchedulerRunning := true
    xTickCount := 0 }

/-- After the creation of the first task, from the memory `lists`. -/
def start (lists : TaskLists τ ε) (priorities : τ → Fin 5) (uxPriority : ℕ) (pxNewTCB : τ) :
    Kernel τ ε :=
  let k : Kernel τ ε :=
    { lists := lists, uxPriority := priorities, pxCurrentTCB := pxNewTCB
      pxDelayedTaskList := .xDelayedTaskList1, pxOverflowDelayedTaskList := .xDelayedTaskList2
      uxTopReadyPriority := 0, xTickCount := 0, xNextTaskUnblockTime := 0
      uxSchedulerSuspended := 0, xPendedTicks := 0, xYieldPending := false, xNumOfOverflows := 0
      xSchedulerRunning := false, uxCurrentNumberOfTasks := 1
      uxDeletedTasksWaitingCleanUp := 0, pendSV := false }
  ((k.prvInitialiseNewTask uxPriority pxNewTCB).prvInitialiseTaskLists).prvAddTaskToReadyList pxNewTCB

end Kernel

end Stm32F407
