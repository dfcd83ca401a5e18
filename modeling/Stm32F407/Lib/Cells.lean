import Mathlib.Data.List.Basic
import Mathlib.Tactic

/-! A memory of cells of one type, indexed by naturals: filling a run of cells
with one value, copying a list over a run, and reading a run back. Cells
outside the run written are unchanged, and an out of range write stays visible.
A traced memory also keeps the cells that were read or written. -/

namespace Lib

variable {α : Type*}

/-- The `n` cells from `a` on set to `v`, in ascending order. -/
def fill (m : ℕ → α) (a : ℕ) (v : α) : ℕ → ℕ → α
  | 0 => m
  | n + 1 => Function.update (fill m a v n) (a + n) v

theorem fill_apply (m : ℕ → α) (a n : ℕ) (v : α) (j : ℕ) :
    fill m a v n j = if a ≤ j ∧ j < a + n then v else m j := by
  induction n with
  | zero => simp [fill]
  | succ n ih =>
    simp only [fill, Function.update_apply, ih]
    split_ifs <;> first | rfl | omega

theorem fill_inside (m : ℕ → α) {a n j : ℕ} (v : α) (h1 : a ≤ j) (h2 : j < a + n) :
    fill m a v n j = v := by
  rw [fill_apply, if_pos ⟨h1, h2⟩]

theorem fill_outside (m : ℕ → α) {a n j : ℕ} (v : α) (h : j < a ∨ a + n ≤ j) :
    fill m a v n j = m j := by
  rw [fill_apply, if_neg (by omega)]

/-- The list `l` written to the cells from `a` on, in ascending order. -/
def blit (m : ℕ → α) : ℕ → List α → ℕ → α
  | _, [] => m
  | a, x :: l => blit (Function.update m a x) (a + 1) l

/-- The `n` cells from `a` on, read in ascending order. -/
def slice (m : ℕ → α) (a n : ℕ) : List α := (List.range n).map fun i => m (a + i)

@[simp] theorem slice_length (m : ℕ → α) (a n : ℕ) : (slice m a n).length = n := by
  simp [slice]

@[simp] theorem slice_zero (m : ℕ → α) (a : ℕ) : slice m a 0 = [] := rfl

theorem slice_getElem (m : ℕ → α) (a n i : ℕ) (h : i < (slice m a n).length) :
    (slice m a n)[i] = m (a + i) := by
  simp [slice]

theorem slice_succ' (m : ℕ → α) (a n : ℕ) : slice m a (n + 1) = m a :: slice m (a + 1) n := by
  simp [slice, List.range_succ_eq_map, Nat.add_comm, Nat.add_left_comm]

theorem slice_append (m : ℕ → α) (a n k : ℕ) :
    slice m a (n + k) = slice m a n ++ slice m (a + n) k := by
  simp [slice, List.range_add, Nat.add_assoc]

theorem slice_congr {m m' : ℕ → α} {a n : ℕ} (h : ∀ i < n, m (a + i) = m' (a + i)) :
    slice m a n = slice m' a n := by
  apply List.map_congr_left
  intro i hi
  exact h i (List.mem_range.mp hi)

theorem slice_eq_iff {m m' : ℕ → α} {a a' n : ℕ} :
    slice m a n = slice m' a' n ↔ ∀ i < n, m (a + i) = m' (a' + i) := by
  simp [slice, List.map_inj_left]

theorem slice_shift (m : ℕ → α) (d n : ℕ) : slice (fun i => m (i + d)) 0 n = slice m d n := by
  rw [slice_eq_iff]
  intro i _
  rw [Nat.zero_add, Nat.add_comm]

theorem slice_getLast (m : ℕ → α) (a n : ℕ) : (slice m a (n + 1)).getLast? = some (m (a + n)) := by
  rw [slice_append, List.getLast?_append]
  simp [slice]

theorem slice_take (m : ℕ → α) (a : ℕ) {n k : ℕ} (h : k ≤ n) :
    (slice m a n).take k = slice m a k := by
  obtain ⟨d, rfl⟩ := Nat.exists_eq_add_of_le h
  rw [slice_append]
  simp

theorem blit_apply (m : ℕ → α) (a : ℕ) (l : List α) (j : ℕ) :
    blit m a l j = if h : a ≤ j ∧ j - a < l.length then l[j - a] else m j := by
  induction l generalizing m a with
  | nil => simp [blit]
  | cons x l ih =>
    simp only [blit, ih, Function.update_apply, List.length_cons]
    rcases lt_trichotomy j a with h | h | h
    · rw [dif_neg (by omega), dif_neg (by omega), if_neg (by omega)]
    · subst h
      simp
    · by_cases hl : j - a < l.length + 1
      · rw [dif_pos (by omega), dif_pos (by omega)]
        simp only [show j - a = j - (a + 1) + 1 by omega, List.getElem_cons_succ]
      · rw [dif_neg (by omega), dif_neg (by omega), if_neg (by omega)]

theorem blit_outside (m : ℕ → α) {a : ℕ} (l : List α) {j : ℕ} (h : j < a ∨ a + l.length ≤ j) :
    blit m a l j = m j := by
  rw [blit_apply, dif_neg (by omega)]

theorem blit_inside (m : ℕ → α) (a : ℕ) (l : List α) (i : ℕ) (h : i < l.length) :
    blit m a l (a + i) = l[i] := by
  rw [blit_apply, dif_pos (by omega)]
  simp

theorem blit_congr {m m' : ℕ → α} {a : ℕ} (l : List α) (h : ∀ j < a, m' j = m j) {j : ℕ}
    (hj : j < a + l.length) : blit m' a l j = blit m a l j := by
  rw [blit_apply, blit_apply]
  split_ifs with hin
  · rfl
  · exact h j (by omega)

theorem slice_blit (m : ℕ → α) (a : ℕ) (l : List α) : slice (blit m a l) a l.length = l := by
  apply List.ext_getElem (by simp)
  intro i h1 h2
  rw [slice_getElem, blit_inside m a l i h2]

theorem slice_blit_of_disjoint (m : ℕ → α) {a b n : ℕ} (l : List α)
    (h : b + n ≤ a ∨ a + l.length ≤ b) : slice (blit m a l) b n = slice m b n := by
  apply slice_congr
  intro i hi
  exact blit_outside m l (by omega)

/-- Writing `l` somewhere into a slice changes it only if it changes one of its cells. -/
theorem slice_blit_eq_iff {m : ℕ → α} {a k n : ℕ} {l : List α} :
    slice (blit m (a + k) l) a n = slice m a n ↔
      ∀ i, (h : i < l.length) → k + i < n → l[i] = m (a + k + i) := by
  rw [slice_eq_iff]
  refine ⟨fun h i hi hn => ?_, fun h j hj => ?_⟩
  · rw [← blit_inside m (a + k) l i hi, Nat.add_assoc]
    exact h (k + i) hn
  · rw [blit_apply]
    split_ifs with hin
    · rw [h _ hin.2 (by omega), Nat.add_sub_cancel' hin.1]
    · rfl

theorem blit_eq_self_iff {m : ℕ → α} {a : ℕ} {l : List α} :
    blit m a l = m ↔ ∀ i, (h : i < l.length) → l[i] = m (a + i) := by
  refine ⟨fun h i hi => ?_, fun h => funext fun j => ?_⟩
  · rw [← blit_inside m a l i hi, h]
  · rw [blit_apply]
    split_ifs with hj
    · rw [h _ hj.2, Nat.add_sub_cancel' hj.1]
    · rfl

/-- The list `l` stands in the memory from cell `a` on. -/
def Holds (m : ℕ → α) (a : ℕ) (l : List α) : Prop := slice m a l.length = l

@[simp] theorem holds_nil (m : ℕ → α) (a : ℕ) : Holds m a [] := rfl

@[simp] theorem holds_cons {m : ℕ → α} {a : ℕ} {x : α} {l : List α} :
    Holds m a (x :: l) ↔ m a = x ∧ Holds m (a + 1) l := by
  simp [Holds, slice_succ']

@[simp] theorem holds_append {m : ℕ → α} {a : ℕ} {l l' : List α} :
    Holds m a (l ++ l') ↔ Holds m a l ∧ Holds m (a + l.length) l' := by
  rw [Holds, List.length_append, slice_append, List.append_eq_append_iff_of_size_eq_left (by simp)]
  rfl

theorem holds_blit (m : ℕ → α) (a : ℕ) (l : List α) : Holds (blit m a l) a l := slice_blit m a l

theorem Holds.congr {m m' : ℕ → α} {a : ℕ} {l : List α} (h : Holds m a l)
    (heq : ∀ i < l.length, m' (a + i) = m (a + i)) : Holds m' a l :=
  (slice_congr heq).trans h

structure Traced (α : Type*) where
  cells : ℕ → α
  touched : List ℕ

namespace Traced

/-- The memory before anything is touched. -/
def start (m : ℕ → α) : Traced α := ⟨m, []⟩

def read (m : Traced α) (k : ℕ) : α × Traced α :=
  (m.cells k, { m with touched := m.touched ++ [k] })

def write (m : Traced α) (k : ℕ) (v : α) : Traced α :=
  { cells := Function.update m.cells k v, touched := m.touched ++ [k] }

@[simp] theorem start_cells (m : ℕ → α) : (start m).cells = m := rfl

@[simp] theorem start_touched (m : ℕ → α) : (start m).touched = [] := rfl

@[simp] theorem read_fst (m : Traced α) (k : ℕ) : (m.read k).1 = m.cells k := rfl

@[simp] theorem read_cells (m : Traced α) (k : ℕ) : (m.read k).2.cells = m.cells := rfl

@[simp] theorem read_touched (m : Traced α) (k : ℕ) :
    (m.read k).2.touched = m.touched ++ [k] := rfl

@[simp] theorem write_cells (m : Traced α) (k : ℕ) (v : α) :
    (m.write k v).cells = Function.update m.cells k v := rfl

@[simp] theorem write_touched (m : Traced α) (k : ℕ) (v : α) :
    (m.write k v).touched = m.touched ++ [k] := rfl

end Traced

end Lib
