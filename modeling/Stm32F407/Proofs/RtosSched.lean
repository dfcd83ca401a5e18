import Stm32F407.Spec.RtosSystem

/-! The scheduler over time that does not wrap: what an event does to the state of a task,
and what it leaves alone. -/

namespace Stm32F407

namespace Sched

variable {τ ε : Type} {a a' : Sched τ ε} {t t' : τ} {s : TaskState ε} {e : Option ε} {w : ℕ}
  {ev : KernelEvent τ ε}

/-- Time readies a task that waits and changes nothing else. -/
theorem at_eq_or (s : TaskState ε) (n : ℕ) :
    s.at n = s ∨ s.at n = .ready ∧ ((∃ e wake, s = .blocked e wake) ∨ ∃ wake, s = .woken wake) := by
  cases s with
  | blocked e w =>
    cases w with
    | none => exact Or.inl rfl
    | some w =>
      by_cases hle : w ≤ n
      · exact Or.inr ⟨if_pos hle, Or.inl ⟨e, _, rfl⟩⟩
      · exact Or.inl (if_neg hle)
  | woken w =>
    cases w with
    | none => exact Or.inl rfl
    | some w =>
      by_cases hle : w ≤ n
      · exact Or.inr ⟨if_pos hle, Or.inr ⟨_, rfl⟩⟩
      · exact Or.inl (if_neg hle)
  | _ => exact Or.inl rfl

theorem at_absent_iff (s : TaskState ε) (n : ℕ) : s.at n = .absent ↔ s = .absent := by
  obtain h | ⟨h, ⟨e, wake, rfl⟩ | ⟨wake, rfl⟩⟩ := at_eq_or s n <;> simp [h]

theorem at_deleted_iff (s : TaskState ε) (n : ℕ) : s.at n = .deleted ↔ s = .deleted := by
  obtain h | ⟨h, ⟨e, wake, rfl⟩ | ⟨wake, rfl⟩⟩ := at_eq_or s n <;> simp [h]

theorem at_ne_woken (s : TaskState ε) (n : ℕ) (hs : ∀ wake, s ≠ .woken wake) (wake : Option ℕ) :
    s.at n ≠ .woken wake := by
  obtain h | ⟨h, -⟩ := at_eq_or s n
  · rw [h]
    exact hs wake
  · simp [h]

theorem at_blocked (n : ℕ) : (TaskState.blocked e (some w)).at n =
    if w ≤ n then .ready else .blocked e (some w) := rfl

theorem resumed_absent_iff (s : TaskState ε) : s.resumed = .absent ↔ s = .absent := by
  cases s <;> simp [TaskState.resumed]

theorem resumed_deleted_iff (s : TaskState ε) : s.resumed = .deleted ↔ s = .deleted := by
  cases s <;> simp [TaskState.resumed]

theorem resumed_ready_iff (s : TaskState ε) :
    s.resumed = .ready ↔ s = .ready ∨ ∃ wake, s = .woken wake := by
  cases s <;> simp [TaskState.resumed]

theorem resumed_ne_woken (s : TaskState ε) (wake : Option ℕ) : s.resumed ≠ .woken wake := by
  cases s <;> simp [TaskState.resumed]

theorem advance_absent_iff (a : Sched τ ε) (n : ℕ) (t : τ) :
    (advance^[n] a).task t = .absent ↔ a.task t = .absent := by
  induction n generalizing a with
  | zero => rfl
  | succ n ih =>
    rw [Function.iterate_succ_apply, ih]
    exact at_absent_iff _ _

theorem advance_deleted_iff (a : Sched τ ε) (n : ℕ) (t : τ) :
    (advance^[n] a).task t = .deleted ↔ a.task t = .deleted := by
  induction n generalizing a with
  | zero => rfl
  | succ n ih =>
    rw [Function.iterate_succ_apply, ih]
    exact at_deleted_iff _ _

theorem advance_ready {t : τ} (ht : a.task t = .ready) (n : ℕ) :
    (advance^[n] a).task t = .ready := by
  induction n generalizing a with
  | zero => exact ht
  | succ n ih =>
    rw [Function.iterate_succ_apply]
    refine ih ?_
    show (a.task t).at _ = _
    rw [ht]
    rfl

theorem advance_ne_woken (ha : ∀ t wake, a.task t ≠ .woken wake) (n : ℕ) (t : τ) (wake : Option ℕ) :
    (advance^[n] a).task t ≠ .woken wake := by
  induction n generalizing a with
  | zero => exact ha t wake
  | succ n ih =>
    rw [Function.iterate_succ_apply]
    exact ih fun t => at_ne_woken _ _ (ha t)

theorem advance_prio (a : Sched τ ε) (n : ℕ) :
    (advance^[n] a).prio = a.prio ∧ (advance^[n] a).running = a.running := by
  induction n generalizing a with
  | zero => exact ⟨rfl, rfl⟩
  | succ n ih =>
    rw [Function.iterate_succ_apply]
    exact ih a.advance

theorem advance_now (a : Sched τ ε) (n : ℕ) :
    (advance^[n] a).now = a.now + n ∧ (advance^[n] a).pended = a.pended := by
  induction n generalizing a with
  | zero => exact ⟨rfl, rfl⟩
  | succ n ih =>
    rw [Function.iterate_succ_apply]
    refine ⟨(ih a.advance).1.trans ?_, (ih a.advance).2⟩
    show a.now + 1 + n = _
    omega

/-- A task that waits until `w` is ready after the ticks up to `w`, and not before. -/
theorem advance_blocked (h : a.task t = .blocked e (some w)) (hw : a.now < w) (n : ℕ) :
    (advance^[n] a).task t = if w ≤ a.now + n then .ready else .blocked e (some w) := by
  induction n generalizing a with
  | zero =>
    rw [Function.iterate_zero, id, h, if_neg (by omega)]
  | succ n ih =>
    rw [Function.iterate_succ_apply]
    have hnow : a.advance.now = a.now + 1 := rfl
    have htask : a.advance.task t = if w ≤ a.now + 1 then .ready else .blocked e (some w) := by
      show (a.task t).at (a.now + 1) = _
      rw [h, at_blocked]
    split_ifs at htask with hle
    · rw [advance_ready htask, if_pos (by omega)]
    · rw [ih htask (by rw [hnow]; omega), hnow]
      simp only [Nat.add_assoc, Nat.add_comm 1 n]

theorem advance_on_time (h : a.task t = .blocked e (some w)) (hw : a.now < w) (n : ℕ) :
    (advance^[n] a).task t = .blocked e (some w) ∧ (advance^[n] a).now < w ∨
      (advance^[n] a).task t = .ready ∧ w ≤ (advance^[n] a).now := by
  rw [advance_blocked h hw, (advance_now a n).1]
  split_ifs with hle
  · exact Or.inr ⟨rfl, hle⟩
  · exact Or.inl ⟨rfl, not_le.mp hle⟩

/-- The tasks woken meanwhile are ready, and the ticks held back have passed. -/
def caughtUp (a : Sched τ ε) : Sched τ ε :=
  advance^[a.pended] { a with task := fun t => (a.task t).resumed }

theorem resumeAll_last (hd : a.depth - 1 = 0) :
    a.resumeAll = { a.caughtUp with depth := 0, pended := 0 } := if_pos hd

theorem resumeAll_nested (hd : a.depth - 1 ≠ 0) : a.resumeAll = { a with depth := a.depth - 1 } :=
  if_neg hd

theorem caughtUp_now (a : Sched τ ε) : a.caughtUp.now = a.now + a.pended := (advance_now _ _).1

theorem caughtUp_prio (a : Sched τ ε) : a.caughtUp.prio = a.prio := (advance_prio _ _).1

theorem caughtUp_running (a : Sched τ ε) : a.caughtUp.running = a.running := (advance_prio _ _).2

theorem caughtUp_absent_iff (a : Sched τ ε) (t : τ) :
    a.caughtUp.task t = .absent ↔ a.task t = .absent :=
  (advance_absent_iff _ _ _).trans (resumed_absent_iff _)

theorem caughtUp_deleted_iff (a : Sched τ ε) (t : τ) :
    a.caughtUp.task t = .deleted ↔ a.task t = .deleted :=
  (advance_deleted_iff _ _ _).trans (resumed_deleted_iff _)

theorem caughtUp_ready (ht : a.task t = .ready) : a.caughtUp.task t = .ready :=
  advance_ready (congrArg TaskState.resumed ht) _

theorem caughtUp_ne_woken (a : Sched τ ε) (t : τ) (wake : Option ℕ) :
    a.caughtUp.task t ≠ .woken wake :=
  advance_ne_woken (fun _ => resumed_ne_woken _) _ _ _

variable [DecidableEq τ]

@[simp] theorem set_self (a : Sched τ ε) (t : τ) (s : TaskState ε) : (a.set t s).task t = s :=
  Function.update_self _ _ _

theorem set_of_ne (a : Sched τ ε) (s : TaskState ε) (h : t' ≠ t) : (a.set t s).task t' = a.task t' :=
  Function.update_of_ne h _ _

theorem set_ne_woken (ha : ∀ t wake, a.task t ≠ .woken wake) (hs : ∀ wake, s ≠ .woken wake)
    (t t' : τ) (wake : Option ℕ) : (a.set t s).task t' ≠ .woken wake := by
  by_cases heq : t' = t
  · rw [heq, set_self]
    exact hs wake
  · rw [set_of_ne a s heq]
    exact ha t' wake

theorem set_ready_iff (a : Sched τ ε) (t t' : τ) :
    (a.set t .ready).task t' = .ready ↔ t' = t ∨ a.task t' = .ready := by
  by_cases heq : t' = t
  · simp [heq]
  · simp [heq, set_of_ne a _ heq]

theorem set_ready (h : a.task t' = .ready) (t : τ) : (a.set t .ready).task t' = .ready :=
  (set_ready_iff a t t').mpr (Or.inr h)

theorem ready_of_set (hs : s ≠ .ready) (h : (a.set t s).task t' = .ready) : a.task t' = .ready := by
  by_cases heq : t' = t
  · rw [heq, set_self] at h
    exact absurd h hs
  · rwa [set_of_ne a s heq] at h

theorem wakeUp_of_running {wake : Option ℕ} (ht : a.task t = .blocked e wake) (hd : a.depth = 0) :
    a.wakeUp t = a.set t .ready := by
  unfold wakeUp
  simp [ht, hd, TaskState.wakeUp]

theorem wakeUp_of_suspended {wake : Option ℕ} (ht : a.task t = .blocked e wake) (hd : a.depth ≠ 0) :
    a.wakeUp t = a.set t (.woken wake) := by
  unfold wakeUp
  simp [ht, hd, TaskState.wakeUp]

/-- The number of tasks in a state that neither the old nor the new state is. -/
theorem encard_set {P : TaskState ε → Prop} (ht : P (a.task t) ↔ P s) :
    {t' | P ((a.set t s).task t')}.encard = {t' | P (a.task t')}.encard := by
  refine congrArg Set.encard (Set.ext fun t' => ?_)
  by_cases heq : t' = t
  · subst heq
    rw [Set.mem_ofPred_eq, Set.mem_ofPred_eq, set_self, ht]
  · rw [Set.mem_ofPred_eq, Set.mem_ofPred_eq, set_of_ne a s heq]

theorem encard_set_add {P : TaskState ε → Prop} {n : ℕ} (ht : ¬ P (a.task t)) (hs : P s)
    (hn : {t' | P (a.task t')}.encard = n) : {t' | P ((a.set t s).task t')}.encard = (n + 1 : ℕ) := by
  have hset : {t' | P ((a.set t s).task t')} = insert t {t' | P (a.task t')} := by
    ext t'
    rw [Set.mem_insert_iff, Set.mem_ofPred_eq, Set.mem_ofPred_eq]
    by_cases heq : t' = t
    · subst heq
      simp [hs]
    · rw [set_of_ne a s heq]
      simp [heq]
  have hmem : t ∉ {t' | P (a.task t')} := ht
  rw [hset, Set.encard_insert_of_notMem hmem, hn]
  rfl

theorem encard_set_sub {P : TaskState ε → Prop} {n : ℕ} (ht : P (a.task t)) (hs : ¬ P s)
    (hn : {t' | P (a.task t')}.encard = n) : {t' | P ((a.set t s).task t')}.encard = (n - 1 : ℕ) := by
  have hset : {t' | P (a.task t')} = insert t {t' | P ((a.set t s).task t')} := by
    ext t'
    rw [Set.mem_insert_iff, Set.mem_ofPred_eq, Set.mem_ofPred_eq]
    by_cases heq : t' = t
    · subst heq
      simp [ht]
    · rw [set_of_ne a s heq]
      simp [heq]
  have hmem : t ∉ {t' | P ((a.set t s).task t')} := by
    rw [Set.mem_ofPred_eq, set_self]
    exact hs
  rw [hset, Set.encard_insert_of_notMem hmem] at hn
  have hfin : {t' | P ((a.set t s).task t')}.Finite := by
    rw [← Set.encard_ne_top_iff]
    intro htop
    rw [htop] at hn
    cases hn
  rw [hfin.encard_eq_coe_toFinset_card] at hn ⊢
  have hcard : hfin.toFinset.card + 1 = n := by exact_mod_cast hn
  rw [← hcard, Nat.add_sub_cancel]

variable [DecidableEq ε]

def isTick : KernelEvent τ ε → Bool
  | .tick => true
  | _ => false

/-- No tick is lost or counted twice, also while the scheduler is suspended. -/
theorem step_ticks (h : a.Step ev a') :
    a'.now + a'.pended = a.now + a.pended + (isTick ev).toNat := by
  cases ev with
  | tick =>
    obtain rfl : a' = a.tick := h
    unfold tick
    split_ifs with hd
    · show a.now + 1 + a.pended = a.now + a.pended + 1
      omega
    · rfl
  | pendSV =>
    unfold Step at h
    split_ifs at h with hd
    · obtain ⟨t, -, rfl⟩ := h
      rfl
    · rw [h]
      rfl
  | resumeAll xYield =>
    obtain rfl : a' = a.resumeAll := h
    by_cases hd : a.depth - 1 = 0
    · rw [resumeAll_last hd]
      exact caughtUp_now a
    · rw [resumeAll_nested hd]
      rfl
  | signal e xYield =>
    obtain ⟨t, -, rfl⟩ := h
    rfl
  | cleanUp => rcases h with ⟨t, -, rfl⟩ | ⟨rfl, -⟩ <;> rfl
  | resume t =>
    obtain rfl : a' = _ := h
    split_ifs <;> rfl
  | resumeFromISR t xYield =>
    obtain rfl : a' = _ := h
    split_ifs <;> rfl
  | _ =>
    obtain rfl : a' = _ := h
    rfl

/-- Events that end the wait of a task before its time. -/
def Disturbs (t : τ) (e : Option ε) : KernelEvent τ ε → Prop
  | .signal e' _ => e = some e'
  | .delete t' => t' = t
  | .suspend t' => t' = t
  | _ => False

/-- What the events take for granted. -/
def Legal (a : Sched τ ε) : KernelEvent τ ε → Prop
  | .delay _ => a.task a.running = .ready
  | .wait _ _ => a.task a.running = .ready
  | .create t _ => a.task t = .absent
  | _ => True

/-- A waiting task that nothing disturbs waits on, or it is ready and its time has come. -/
theorem step_blocked (h : a.Step ev a') (hlegal : a.Legal ev) (ht : a.task t = .blocked e (some w))
    (hw : a.now < w) (hev : ¬ Disturbs t e ev) :
    a'.task t = .blocked e (some w) ∧ a'.now < w ∨ a'.task t = .ready ∧ w ≤ a'.now := by
  have hset : ∀ t' s, t' ≠ t → (a.set t' s).task t = .blocked e (some w) ∧ (a.set t' s).now < w :=
    fun t' s hne => ⟨(set_of_ne a s (Ne.symm hne)).trans ht, hw⟩
  have hcur : a.task a.running = .ready → a.running ≠ t := by
    rintro hr rfl
    cases hr.symm.trans ht
  cases ev with
  | tick =>
    obtain rfl : a' = a.tick := h
    unfold tick
    split_ifs with hd
    · exact advance_on_time ht hw 1
    · exact Or.inl ⟨ht, hw⟩
  | pendSV =>
    unfold Step at h
    split_ifs at h with hd
    · obtain ⟨t', -, rfl⟩ := h
      exact Or.inl ⟨ht, hw⟩
    · rw [h]
      exact Or.inl ⟨ht, hw⟩
  | yield =>
    obtain rfl : a' = a := h
    exact Or.inl ⟨ht, hw⟩
  | suspendAll =>
    obtain rfl : a' = _ := h
    exact Or.inl ⟨ht, hw⟩
  | resumeAll xYield =>
    obtain rfl : a' = a.resumeAll := h
    by_cases hd : a.depth - 1 = 0
    · rw [resumeAll_last hd]
      exact advance_on_time (a := { a with task := fun t => (a.task t).resumed })
        (congrArg TaskState.resumed ht) hw a.pended
    · rw [resumeAll_nested hd]
      exact Or.inl ⟨ht, hw⟩
  | delay d =>
    obtain rfl : a' = _ := h
    exact Or.inl (hset _ _ (hcur hlegal))
  | wait e' d =>
    obtain rfl : a' = _ := h
    exact Or.inl (hset _ _ (hcur hlegal))
  | signal e' xYield =>
    obtain ⟨t', hfirst, rfl⟩ := h
    refine Or.inl (hset t' _ ?_)
    rintro rfl
    obtain ⟨wake, hwake⟩ := hfirst.1
    rw [ht] at hwake
    exact hev (TaskState.blocked.inj hwake).1
  | create t' p =>
    obtain rfl : a' = _ := h
    refine Or.inl (hset t' .ready ?_)
    rintro rfl
    have habs : a.task t' = .absent := hlegal
    cases habs.symm.trans ht
  | delete t' =>
    obtain rfl : a' = _ := h
    exact Or.inl (hset t' _ hev)
  | cleanUp =>
    rcases h with ⟨t', hdel, rfl⟩ | ⟨rfl, -⟩
    · refine Or.inl (hset t' _ ?_)
      rintro rfl
      cases hdel.symm.trans ht
    · exact Or.inl ⟨ht, hw⟩
  | suspend t' =>
    obtain rfl : a' = _ := h
    exact Or.inl (hset t' _ hev)
  | resume t' =>
    obtain rfl : a' = _ := h
    split_ifs with hcond
    · refine Or.inl (hset t' _ ?_)
      rintro rfl
      cases hcond.2.symm.trans ht
    · exact Or.inl ⟨ht, hw⟩
  | resumeFromISR t' xYield =>
    obtain rfl : a' = _ := h
    split_ifs with hcond
    · refine Or.inl (hset t' _ ?_)
      rintro rfl
      cases hcond.symm.trans ht
    · exact Or.inl ⟨ht, hw⟩

end Sched

end Stm32F407
