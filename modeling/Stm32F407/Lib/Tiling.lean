import Mathlib.Data.List.Basic
import Mathlib.Data.List.Pairwise
import Mathlib.Order.Interval.Finset.Nat
import Mathlib.Tactic

/-! Pairwise disjoint blocks of a table of `N` cells in which every cell of a
block holds the length of that block and every cell outside holds zero, or what
it held in a given table below. Such a table has no separators: two neighbouring
blocks of one length look like one block, so the list of blocks is carried beside
the table. -/

namespace Lib

/-- A run of `len` consecutive cells from `start` on. -/
@[ext] structure Block where
  start : ℕ
  len : ℕ
  deriving DecidableEq

instance : Membership ℕ Block := ⟨fun b j => b.start ≤ j ∧ j < b.start + b.len⟩

theorem Block.mem_iff {b : Block} {j : ℕ} : j ∈ b ↔ b.start ≤ j ∧ j < b.start + b.len := Iff.rfl

instance (b : Block) (j : ℕ) : Decidable (j ∈ b) :=
  decidable_of_iff _ Block.mem_iff.symm

/-- No cell lies in both blocks. -/
def Block.Apart (b c : Block) : Prop := b.start + b.len ≤ c.start ∨ c.start + c.len ≤ b.start

theorem Block.Apart.symm {b c : Block} (h : b.Apart c) : c.Apart b := Or.symm h

instance : Std.Symm Block.Apart := ⟨fun _ _ => Block.Apart.symm⟩

theorem Block.Apart.not_mem {b c : Block} (h : b.Apart c) {j : ℕ} (hb : j ∈ b) : j ∉ c := by
  rw [Block.mem_iff] at *
  unfold Block.Apart at h
  omega

theorem Block.apart_of_not_mem {b c : Block} (hb : 0 < b.len) (hc : 0 < c.len)
    (h : ∀ j ∈ b, j ∉ c) : b.Apart c := by
  have h1 := h b.start ⟨le_rfl, by omega⟩
  have h2 : c.start ∈ b → c.start ∉ c := h c.start
  simp only [Block.mem_iff] at h1 h2
  unfold Block.Apart
  omega

/-- The blocks `L` are pairwise disjoint runs of cells that are zero in `m₀`, and `m` is
`m₀` with each of these cells set to the length of its block. -/
structure Overlay (N : ℕ) (m₀ m : ℕ → ℕ) (L : List Block) : Prop where
  pos : ∀ b ∈ L, 0 < b.len
  inside : ∀ b ∈ L, b.start + b.len ≤ N
  apart : L.Pairwise Block.Apart
  free : ∀ b ∈ L, ∀ j ∈ b, m₀ j = 0
  mark : ∀ b ∈ L, ∀ j ∈ b, m j = b.len
  rest : ∀ j < N, (∀ b ∈ L, j ∉ b) → m j = m₀ j

namespace Overlay

variable {N : ℕ} {m₀ m m' : ℕ → ℕ} {L L' : List Block} {b : Block}

theorem nil (h : ∀ j < N, m j = m₀ j) : Overlay N m₀ m [] :=
  ⟨by simp, by simp, List.Pairwise.nil, by simp, by simp, fun j hj _ => h j hj⟩

theorem perm (h : Overlay N m₀ m L) (hp : L.Perm L') : Overlay N m₀ m L' where
  pos b hb := h.pos b (hp.mem_iff.mpr hb)
  inside b hb := h.inside b (hp.mem_iff.mpr hb)
  apart := (hp.pairwise_iff fun h => Block.Apart.symm h).mp h.apart
  free b hb := h.free b (hp.mem_iff.mpr hb)
  mark b hb := h.mark b (hp.mem_iff.mpr hb)
  rest j hj hn := h.rest j hj fun b hb => hn b (hp.mem_iff.mp hb)

theorem mark_start (h : Overlay N m₀ m L) (hb : b ∈ L) : m b.start = b.len :=
  h.mark b hb b.start ⟨le_rfl, by have := h.pos b hb; omega⟩

/-- Marking a run of zero cells adds a block. -/
theorem add (h : Overlay N m₀ m L) (hpos : 0 < b.len) (hin : b.start + b.len ≤ N)
    (hfree : ∀ j ∈ b, m j = 0) (hmark : ∀ j ∈ b, m' j = b.len) (hframe : ∀ j, j ∉ b → m' j = m j) :
    Overlay N m₀ m' (b :: L) := by
  have hout : ∀ c ∈ L, ∀ j ∈ c, j ∉ b := by
    intro c hc j hj hb
    have hz := hfree j hb
    rw [h.mark c hc j hj] at hz
    have := h.pos c hc
    omega
  have hzero : ∀ j ∈ b, m₀ j = 0 := by
    intro j hj
    have hlt : j < N := by rw [Block.mem_iff] at hj; omega
    rw [← h.rest j hlt fun c hc hjc => hout c hc j hjc hj]
    exact hfree j hj
  refine ⟨?_, ?_, ?_, ?_, ?_, ?_⟩
  · simpa [hpos] using h.pos
  · simpa [hin] using h.inside
  · rw [List.pairwise_cons]
    refine ⟨fun c hc => ?_, h.apart⟩
    exact (Block.apart_of_not_mem (h.pos c hc) hpos (hout c hc)).symm
  · intro c hc j hj
    rcases List.mem_cons.mp hc with rfl | hc
    · exact hzero j hj
    · exact h.free c hc j hj
  · intro c hc j hj
    rcases List.mem_cons.mp hc with rfl | hc
    · exact hmark j hj
    · rw [hframe j (hout c hc j hj)]
      exact h.mark c hc j hj
  · intro j hj hn
    rw [hframe j (hn b (by simp))]
    exact h.rest j hj fun c hc => hn c (by simp [hc])

/-- Zeroing the cells of a block removes it. -/
theorem remove (h : Overlay N m₀ m (b :: L)) (hzero : ∀ j ∈ b, m' j = 0)
    (hframe : ∀ j, j ∉ b → m' j = m j) : Overlay N m₀ m' L := by
  have hap := (List.pairwise_cons.mp h.apart).1
  refine ⟨fun c hc => h.pos c (by simp [hc]), fun c hc => h.inside c (by simp [hc]),
    (List.pairwise_cons.mp h.apart).2, fun c hc => h.free c (by simp [hc]), ?_, ?_⟩
  · intro c hc j hj
    rw [hframe j ((hap c hc).symm.not_mem hj)]
    exact h.mark c (by simp [hc]) j hj
  · intro j hj hn
    by_cases hb : j ∈ b
    · rw [hzero j hb, h.free b (by simp) j hb]
    · rw [hframe j hb]
      refine h.rest j hj fun c hc => ?_
      rcases List.mem_cons.mp hc with rfl | hc
      · exact hb
      · exact hn c hc

end Overlay

/-- The blocks `L` lie in the table of `N` cells, are pairwise disjoint, and
`m` marks exactly their cells, each with the length of its block. -/
structure Tiling (N : ℕ) (m : ℕ → ℕ) (L : List Block) : Prop where
  pos : ∀ b ∈ L, 0 < b.len
  inside : ∀ b ∈ L, b.start + b.len ≤ N
  apart : L.Pairwise Block.Apart
  mark : ∀ b ∈ L, ∀ j ∈ b, m j = b.len
  rest : ∀ j < N, (∀ b ∈ L, j ∉ b) → m j = 0

/-- A tiling is an overlay of the table of zeros. -/
theorem tiling_iff_overlay {N : ℕ} {m : ℕ → ℕ} {L : List Block} :
    Tiling N m L ↔ Overlay N (fun _ => 0) m L :=
  ⟨fun h => ⟨h.pos, h.inside, h.apart, fun _ _ _ _ => rfl, h.mark, h.rest⟩,
    fun h => ⟨h.pos, h.inside, h.apart, h.mark, h.rest⟩⟩

namespace Tiling

variable {N : ℕ} {m m' : ℕ → ℕ} {L L' : List Block} {b c : Block} {j : ℕ}

theorem nil (h : ∀ j < N, m j = 0) : Tiling N m [] :=
  ⟨by simp, by simp, List.Pairwise.nil, by simp, fun j hj _ => h j hj⟩

/-- Only the cells of the table matter. -/
theorem congr (h : Tiling N m L) (hm : ∀ j < N, m' j = m j) : Tiling N m' L := by
  refine ⟨h.pos, h.inside, h.apart, ?_, ?_⟩
  · intro b hb j hj
    have hin := h.inside b hb
    rw [hm j (by rw [Block.mem_iff] at hj; omega)]
    exact h.mark b hb j hj
  · intro j hj hn
    rw [hm j hj]
    exact h.rest j hj hn

theorem perm (h : Tiling N m L) (hp : L.Perm L') : Tiling N m L' :=
  tiling_iff_overlay.mpr ((tiling_iff_overlay.mp h).perm hp)

/-- A cell of the table is zero exactly when it lies in no block. -/
theorem zero_iff (h : Tiling N m L) (hj : j < N) : m j = 0 ↔ ∀ b ∈ L, j ∉ b := by
  constructor
  · intro hz b hb hmem
    have := h.mark b hb j hmem
    have := h.pos b hb
    omega
  · exact h.rest j hj

theorem mark_start (h : Tiling N m L) (hb : b ∈ L) : m b.start = b.len :=
  h.mark b hb b.start ⟨le_rfl, by have := h.pos b hb; omega⟩

/-- Two blocks of a tiling that share a cell are one block. -/
theorem eq_of_mem (h : Tiling N m L) (hb : b ∈ L) (hc : c ∈ L) (hjb : j ∈ b) (hjc : j ∈ c) :
    b = c := by
  by_contra hne
  exact (h.apart.forall hb hc hne).not_mem hjb hjc

/-- Marking a run of zero cells adds a block. -/
theorem add (h : Tiling N m L) (hpos : 0 < b.len) (hin : b.start + b.len ≤ N)
    (hfree : ∀ j ∈ b, m j = 0) (hmark : ∀ j ∈ b, m' j = b.len) (hframe : ∀ j, j ∉ b → m' j = m j) :
    Tiling N m' (b :: L) :=
  tiling_iff_overlay.mpr ((tiling_iff_overlay.mp h).add hpos hin hfree hmark hframe)

/-- Zeroing the cells of a block removes it. -/
theorem remove (h : Tiling N m (b :: L)) (hzero : ∀ j ∈ b, m' j = 0)
    (hframe : ∀ j, j ∉ b → m' j = m j) : Tiling N m' L :=
  tiling_iff_overlay.mpr ((tiling_iff_overlay.mp h).remove hzero hframe)

/-- As many cells are in use as the blocks have together. -/
theorem card_used (h : Tiling N m L) :
    ((Finset.range N).filter fun j => m j ≠ 0).card = (L.map Block.len).sum := by
  induction L generalizing m with
  | nil =>
    rw [List.map_nil, List.sum_nil, Finset.card_eq_zero, Finset.filter_eq_empty_iff]
    intro j hj hne
    exact hne (h.rest j (Finset.mem_range.mp hj) (by simp))
  | cons b L ih =>
    have hin := h.inside b (by simp)
    have hrest : Tiling N (fun j => if j ∈ b then 0 else m j) L :=
      h.remove (fun j hj => if_pos hj) fun j hj => if_neg hj
    have hdisj : Disjoint (Finset.Ico b.start (b.start + b.len))
        ((Finset.range N).filter fun j => (if j ∈ b then 0 else m j) ≠ 0) := by
      refine Finset.disjoint_left.mpr fun j hj hne => ?_
      exact (Finset.mem_filter.mp hne).2 (if_pos (Finset.mem_Ico.mp hj))
    have hsplit : (Finset.range N).filter (fun j => m j ≠ 0) =
        (Finset.Ico b.start (b.start + b.len)).disjUnion
          ((Finset.range N).filter fun j => (if j ∈ b then 0 else m j) ≠ 0) hdisj := by
      ext j
      simp only [Finset.mem_filter, Finset.mem_range, Finset.mem_disjUnion, Finset.mem_Ico,
        ← Block.mem_iff]
      by_cases hj : j ∈ b
      · have hlt : j < N := by
          rw [Block.mem_iff] at hj
          omega
        have hused : m j ≠ 0 := by
          rw [h.mark b (by simp) j hj]
          exact (h.pos b (by simp)).ne'
        simp [hj, hlt, hused]
      · simp [hj]
    rw [hsplit, Finset.card_disjUnion, ih hrest, Nat.card_Ico, List.map_cons, List.sum_cons]
    omega

end Tiling

end Lib
