import Mathlib.Data.List.Basic
import Mathlib.Tactic

/-! Runs of a labelled step relation. A property of every reachable state is
proved from what one step preserves; a run whose steps all satisfy a guard is
a run of the guarded relation. -/

namespace Lib

variable {σ ε : Type*} {step : σ → ε → σ → Prop} {s₀ s s' : σ} {e : ε} {evs evs' : List ε}

/-- The events `evs`, taken in order, lead from `s₀` to the final state. -/
inductive Run (step : σ → ε → σ → Prop) (s₀ : σ) : List ε → σ → Prop
  | nil : Run step s₀ [] s₀
  | snoc {evs : List ε} {s s' : σ} {e : ε} :
      Run step s₀ evs s → step s e s' → Run step s₀ (evs ++ [e]) s'

/-- The relation that takes only the steps allowed by `G` in the state before. -/
def Guarded (step : σ → ε → σ → Prop) (G : σ → ε → Prop) : σ → ε → σ → Prop :=
  fun s e s' => G s e ∧ step s e s'

theorem Run.invariant {Inv : σ → Prop} (h : Run step s₀ evs s) (hinit : Inv s₀)
    (hstep : ∀ s e s', Inv s → step s e s' → Inv s') : Inv s := by
  induction h with
  | nil => exact hinit
  | snoc _ hs ih => exact hstep _ _ _ ih hs

theorem Run.mono {step' : σ → ε → σ → Prop} (hsub : ∀ s e s', step s e s' → step' s e s')
    (h : Run step s₀ evs s) : Run step' s₀ evs s := by
  induction h with
  | nil => exact Run.nil
  | snoc _ hs ih => exact Run.snoc ih (hsub _ _ _ hs)

theorem Run.of_guarded {G : σ → ε → Prop} (h : Run (Guarded step G) s₀ evs s) :
    Run step s₀ evs s :=
  h.mono fun _ _ _ hs => hs.2

/-- A run whose events all satisfy `P` is one of the relation restricted to such events. -/
theorem Run.guard {P : ε → Prop} (h : Run step s₀ evs s) (hP : ∀ e ∈ evs, P e) :
    Run (Guarded step fun _ e => P e) s₀ evs s := by
  induction h with
  | nil => exact Run.nil
  | snoc _ hs ih =>
    exact Run.snoc (ih fun e he => hP e (List.mem_append_left _ he)) ⟨hP _ (by simp), hs⟩

/-- A forward simulation carries over to runs. -/
theorem Run.simulate {α : Type*} {astep : α → ε → α → Prop} {a₀ : α} {R : σ → α → Prop}
    (h : Run step s₀ evs s) (hinit : R s₀ a₀)
    (hsim : ∀ s e s' a, R s a → step s e s' → ∃ a', astep a e a' ∧ R s' a') :
    ∃ a, Run astep a₀ evs a ∧ R s a := by
  induction h with
  | nil => exact ⟨a₀, Run.nil, hinit⟩
  | snoc _ hs ih =>
    obtain ⟨a, hrun, hR⟩ := ih
    obtain ⟨a', hstep, hR'⟩ := hsim _ _ _ _ hR hs
    exact ⟨a', hrun.snoc hstep, hR'⟩

theorem Run.single (h : step s₀ e s) : Run step s₀ [e] s := Run.snoc Run.nil h

theorem Run.append (h : Run step s₀ evs s) (h' : Run step s evs' s') :
    Run step s₀ (evs ++ evs') s' := by
  induction h' with
  | nil => simpa using h
  | snoc _ hs ih =>
    rw [← List.append_assoc]
    exact Run.snoc ih hs

/-- Each of the events is admitted by `G` when its turn comes. -/
def Admitted (next : σ → ε → σ) (G : σ → ε → Prop) : σ → List ε → Prop
  | _, [] => True
  | s, e :: evs => G s e ∧ Admitted next G (next s e) evs

instance Admitted.decidable (next : σ → ε → σ) (G : σ → ε → Prop) [∀ s e, Decidable (G s e)] :
    (s : σ) → (evs : List ε) → Decidable (Admitted next G s evs)
  | _, [] => inferInstanceAs (Decidable True)
  | s, e :: evs =>
      have := Admitted.decidable next G (next s e) evs
      inferInstanceAs (Decidable (G s e ∧ Admitted next G (next s e) evs))

theorem Run.of_admitted {next : σ → ε → σ} {G : σ → ε → Prop}
    (hstep : ∀ s e, G s e → step s e (next s e)) (h : Admitted next G s evs) :
    Run step s evs (evs.foldl next s) := by
  induction evs generalizing s with
  | nil => exact Run.nil
  | cons e evs ih => exact (Run.single (hstep s e h.1)).append (ih h.2)

/-- A step relation with one successor: the events determine the final state. -/
theorem Run.eq_foldl {next : σ → ε → σ} (hdet : ∀ s e s', step s e s' → s' = next s e)
    (h : Run step s₀ evs s) : s = evs.foldl next s₀ := by
  induction h with
  | nil => rfl
  | snoc _ hs ih => rw [List.foldl_append, ← ih, hdet _ _ _ hs, List.foldl_cons, List.foldl_nil]

theorem run_nil_iff : Run step s₀ [] s ↔ s = s₀ := by
  constructor
  · intro h
    generalize hn : ([] : List ε) = l at h
    cases h with
    | nil => rfl
    | snoc _ _ => simp at hn
  · rintro rfl
    exact Run.nil

theorem run_snoc_iff : Run step s₀ (evs ++ [e]) s' ↔ ∃ s, Run step s₀ evs s ∧ step s e s' := by
  constructor
  · intro h
    generalize hl : evs ++ [e] = l at h
    cases h with
    | nil => simp at hl
    | snoc hr hs =>
      obtain ⟨rfl, he⟩ := List.append_inj' hl rfl
      obtain rfl : _ = _ := by simpa using he
      exact ⟨_, hr, hs⟩
  · rintro ⟨s, hr, hs⟩
    exact Run.snoc hr hs

theorem run_single_iff : Run step s₀ [e] s ↔ step s₀ e s := by
  constructor
  · intro h
    obtain ⟨t, ht, hs⟩ := run_snoc_iff.mp ((List.nil_append [e]).symm ▸ h)
    obtain rfl := run_nil_iff.mp ht
    exact hs
  · exact Run.single

theorem run_append_iff :
    Run step s₀ (evs ++ evs') s' ↔ ∃ s, Run step s₀ evs s ∧ Run step s evs' s' := by
  constructor
  · intro h
    induction evs' using List.reverseRecOn generalizing s' with
    | nil => exact ⟨s', by simpa using h, Run.nil⟩
    | append_singleton evs' e ih =>
      rw [← List.append_assoc, run_snoc_iff] at h
      obtain ⟨t, ht, hs⟩ := h
      obtain ⟨s, hrun, hrest⟩ := ih ht
      exact ⟨s, hrun, hrest.snoc hs⟩
  · rintro ⟨s, hrun, hrest⟩
    exact hrun.append hrest

end Lib
