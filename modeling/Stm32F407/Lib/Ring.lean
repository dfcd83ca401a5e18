import Mathlib.Data.List.Basic
import Mathlib.Data.Nat.ModEq
import Mathlib.Tactic

/-! A ring of `N` slots that two parties share: the producer fills the first free
slot, the consumer empties the oldest full one. The full slots, read from the
oldest on, are a queue. -/

namespace Lib

variable {α : Type*} {N h i j : ℕ}

/-- The slot `i` places after `h`. -/
def slot (N h i : ℕ) : ℕ := (h + i) % N

theorem slot_lt (hN : 0 < N) (h i : ℕ) : slot N h i < N := Nat.mod_lt _ hN

theorem slot_zero (hh : h < N) : slot N h 0 = h := Nat.mod_eq_of_lt hh

theorem slot_self (hh : h < N) : slot N h N = h := by
  rw [slot, Nat.add_mod_right, Nat.mod_eq_of_lt hh]

@[simp] theorem slot_slot (N h i j : ℕ) : slot N (slot N h i) j = slot N h (i + j) := by
  rw [slot, slot, slot, Nat.mod_add_mod, Nat.add_assoc]

theorem slot_inj (hi : i < N) (hj : j < N) : slot N h i = slot N h j ↔ i = j := by
  refine ⟨fun heq => ?_, fun heq => by rw [heq]⟩
  have hmod : i ≡ j [MOD N] := Nat.ModEq.add_left_cancel' h heq
  rwa [Nat.ModEq, Nat.mod_eq_of_lt hi, Nat.mod_eq_of_lt hj] at hmod

theorem slot_succ_eq (hi : i < N) : slot N i 1 = if i < N - 1 then i + 1 else 0 := by
  rw [slot]
  split_ifs
  · exact Nat.mod_eq_of_lt (by omega)
  · rw [show i + 1 = N by omega, Nat.mod_self]

/-- Every slot is some places after `h`. -/
theorem exists_slot (hh : h < N) (hj : j < N) : ∃ i < N, slot N h i = j := by
  rcases Nat.lt_or_ge j h with hlt | hge
  · refine ⟨j + N - h, by omega, ?_⟩
    rw [slot, show h + (j + N - h) = j + N by omega, Nat.add_mod_right, Nat.mod_eq_of_lt hj]
  · refine ⟨j - h, by omega, ?_⟩
    rw [slot, Nat.add_sub_cancel' hge, Nat.mod_eq_of_lt hj]

/-- The full slots are `q.length` ones from `h` on, and `val` reads them as `q`. -/
structure Ring (N : ℕ) (full : ℕ → Prop) (val : ℕ → α) (h : ℕ) (q : List α) : Prop where
  head_lt : h < N
  length_le : q.length ≤ N
  full_iff : ∀ i < N, full (slot N h i) ↔ i < q.length
  val_eq : ∀ i, (hi : i < q.length) → val (slot N h i) = q[i]

namespace Ring

variable {full full' : ℕ → Prop} {val val' : ℕ → α} {q : List α} {x : α}

theorem empty (hh : h < N) (hfree : ∀ i < N, ¬full i) : Ring N full val h [] :=
  ⟨hh, Nat.zero_le _, fun i _ => ⟨fun hf => absurd hf (hfree _ (slot_lt (by omega) _ _)), nofun⟩, nofun⟩

theorem congr (r : Ring N full val h q) (hfull : ∀ j < N, full' j ↔ full j)
    (hval : ∀ j < N, full j → val' j = val j) : Ring N full' val' h q := by
  have hlt : ∀ i, slot N h i < N := slot_lt (by have := r.head_lt; omega) h
  refine ⟨r.head_lt, r.length_le, fun i hi => (hfull _ (hlt i)).trans (r.full_iff i hi), fun i hi => ?_⟩
  have hf := (r.full_iff i (hi.trans_le r.length_le)).mpr hi
  rw [hval _ (hlt i) hf, r.val_eq i hi]

/-- The slot the producer is at is full only if all are. -/
theorem tail_full_iff (r : Ring N full val h q) : full (slot N h q.length) ↔ q.length = N := by
  rcases r.length_le.lt_or_eq with hlt | heq
  · rw [r.full_iff _ hlt]
    omega
  · have hh := r.head_lt
    rw [heq, slot_self hh, ← slot_zero hh, r.full_iff 0 (by omega)]
    omega

/-- A full slot stands at each place when the queue has as many elements as there are slots. -/
theorem all_full_iff (r : Ring N full val h q) : (∀ j < N, full j) ↔ q.length = N := by
  have hh := r.head_lt
  constructor
  · intro hall
    exact r.tail_full_iff.mp (hall _ (slot_lt (by omega) _ _))
  · intro hlen j hj
    obtain ⟨i, hi, rfl⟩ := exists_slot hh hj
    exact (r.full_iff i hi).mpr (by omega)

theorem head_full_iff (r : Ring N full val h q) : full h ↔ q ≠ [] := by
  have hh := r.head_lt
  rw [← slot_zero hh, r.full_iff 0 (by omega)]
  exact List.length_pos_iff

/-- The producer fills the free slot it is at. -/
theorem put (r : Ring N full val h q) (hfree : ¬full (slot N h q.length))
    (hfull : full' (slot N h q.length)) (hval : val' (slot N h q.length) = x)
    (hother : ∀ j < N, j ≠ slot N h q.length → (full' j ↔ full j) ∧ (full j → val' j = val j)) :
    Ring N full' val' h (q ++ [x]) := by
  have hN : 0 < N := by have := r.head_lt; omega
  have hroom : q.length < N := r.length_le.lt_of_ne fun heq => hfree (r.tail_full_iff.mpr heq)
  have hold : ∀ i < N, i ≠ q.length → (full' (slot N h i) ↔ full (slot N h i)) ∧
      (full (slot N h i) → val' (slot N h i) = val (slot N h i)) := fun i hi hne =>
    hother _ (slot_lt hN h i) fun heq => hne ((slot_inj hi hroom).mp heq)
  refine ⟨r.head_lt, by rw [List.length_append, List.length_singleton]; omega, fun i hi => ?_,
    fun i hi => ?_⟩
  · rw [List.length_append, List.length_singleton]
    rcases eq_or_ne i q.length with rfl | hne
    · exact iff_of_true hfull (by omega)
    · rw [(hold i hi hne).1, r.full_iff i hi]
      omega
  · rw [List.length_append, List.length_singleton] at hi
    rcases eq_or_ne i q.length with rfl | hne
    · rw [hval, List.getElem_concat_length rfl]
    · have hlt : i < q.length := by omega
      rw [(hold i (by omega) hne).2 ((r.full_iff i (by omega)).mpr hlt), r.val_eq i hlt,
        List.getElem_append_left hlt]

/-- The consumer empties the oldest slot and goes on to the next. -/
theorem take (r : Ring N full val h (x :: q)) (hfree : ¬full' h)
    (hother : ∀ j < N, j ≠ h → (full' j ↔ full j) ∧ (full j → val' j = val j)) :
    Ring N full' val' (slot N h 1) q := by
  have hN : 0 < N := by have := r.head_lt; omega
  have hlen : q.length + 1 ≤ N := r.length_le
  have hold : ∀ i, i + 1 < N → (full' (slot N h (i + 1)) ↔ full (slot N h (i + 1))) ∧
      (full (slot N h (i + 1)) → val' (slot N h (i + 1)) = val (slot N h (i + 1))) := fun i hi =>
    hother _ (slot_lt hN h _) fun heq => by
      have h0 := (slot_inj (j := 0) hi hN).mp (heq.trans (slot_zero r.head_lt).symm)
      omega
  refine ⟨slot_lt hN h 1, by omega, fun i hi => ?_, fun i hi => ?_⟩
  · rw [slot_slot, Nat.add_comm 1 i]
    rcases Nat.lt_or_ge (i + 1) N with hin | hwrap
    · rw [(hold i hin).1, r.full_iff _ hin, List.length_cons]
      omega
    · rw [show i + 1 = N by omega, slot_self r.head_lt]
      exact iff_of_false hfree (by omega)
  · have hin : i + 1 < (x :: q).length := by rw [List.length_cons]; omega
    rw [slot_slot, Nat.add_comm 1 i, (hold i (by omega)).2 ((r.full_iff _ (by omega)).mpr hin),
      r.val_eq _ hin, List.getElem_cons_succ]

theorem head_val (r : Ring N full val h (x :: q)) : val h = x := by
  have h0 := r.val_eq 0 (by simp)
  rwa [slot_zero r.head_lt] at h0

section Table

variable {β : Type*} {b : β} {t : ℕ}

theorem put_update (P : β → Prop) (tab : ℕ → β) (r : Ring N (fun j => P (tab j)) val h q)
    (ht : t = slot N h q.length) (hfree : ¬P (tab t)) (hb : P b) (hval : val' t = x)
    (hother : ∀ j < N, j ≠ t → P (tab j) → val' j = val j) :
    Ring N (fun j => P (Function.update tab t b j)) val' h (q ++ [x]) := by
  subst ht
  refine r.put hfree ?_ hval fun j hj hne => ?_
  · rwa [Function.update_self]
  · rw [Function.update_of_ne hne]
    exact ⟨Iff.rfl, hother j hj hne⟩

theorem take_update (P : β → Prop) (tab : ℕ → β) (r : Ring N (fun j => P (tab j)) val h (x :: q))
    (hb : ¬P b) (hother : ∀ j < N, j ≠ h → P (tab j) → val' j = val j) :
    Ring N (fun j => P (Function.update tab h b j)) val' (slot N h 1) q := by
  refine r.take ?_ fun j hj hne => ?_
  · rwa [Function.update_self]
  · rw [Function.update_of_ne hne]
    exact ⟨Iff.rfl, hother j hj hne⟩

end Table

end Ring

/-- The full slots met from `h` on along `next`, at most `n` of them. -/
def walk (next : ℕ → ℕ) (full : ℕ → Prop) [DecidablePred full] (val : ℕ → α) : ℕ → ℕ → List α
  | 0, _ => []
  | n + 1, h => if full h then val h :: walk next full val n (next h) else []

variable {next : ℕ → ℕ} {full : ℕ → Prop} [DecidablePred full] {val : ℕ → α} {q : List α}

theorem walk_head {n : ℕ} (hn : 0 < n) (hf : full h) :
    (walk next full val n h).head? = some (val h) := by
  obtain ⟨k, rfl⟩ := Nat.exists_eq_add_of_lt hn
  rw [Nat.zero_add, walk, if_pos hf, List.head?_cons]

theorem Ring.walk_drop (r : Ring N full val h q) (hnext : ∀ j < N, next j = slot N j 1) (n : ℕ)
    {i : ℕ} (hn : i + n = N) : walk next full val n (slot N h i) = q.drop i := by
  have hlen := r.length_le
  induction n generalizing i with
  | zero => rw [List.drop_eq_nil_of_le (by omega), walk]
  | succ n ih =>
    rw [walk, hnext _ (slot_lt (by omega) h i), slot_slot, ih (by omega)]
    have hfull := r.full_iff i (by omega)
    split_ifs with hf
    · rw [r.val_eq i (hfull.mp hf), ← List.drop_eq_getElem_cons]
    · rw [List.drop_eq_nil_of_le (Nat.le_of_not_lt fun hi => hf (hfull.mpr hi))]

/-- A walk once around the ring reads the queue. -/
theorem Ring.walk_eq (r : Ring N full val h q) (hnext : ∀ j < N, next j = slot N j 1) :
    walk next full val N h = q := by
  have hw := r.walk_drop hnext N (i := 0) (Nat.zero_add N)
  rwa [slot_zero r.head_lt] at hw

end Lib
