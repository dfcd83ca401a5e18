import Stm32F407.Proofs.ModbusCoils

/-! What the bit callbacks read: how coils and discrete inputs are packed into the
frame, and which bytes of the table a call touches. The window of the bit helpers
is two bytes wide, so a chunk that starts in the last byte of a table reaches the
byte behind it; the mask drops that byte again on a read. -/

namespace Stm32F407

open Lib

/-- The frame holds bits `a` to `a + n` of the table from cell `p` on, eight to a byte and
zeros at the end, and is `buf` elsewhere. -/
structure PackedBits (tbl buf : ℕ → U8) (p a n : ℕ) (out : ℕ → U8) : Prop where
  inside : ∀ j < (n + 7) / 8, ∀ k < 8,
    (out (p + j)).getLsbD k = (decide (8 * j + k < n) && bitAt tbl (a + 8 * j + k))
  outside : ∀ j, j < p ∨ p + (n + 7) / 8 ≤ j → out j = buf j

/-- A call that reads a table of `size` bits: it succeeds, packs the bits addressed, and
sees nothing of what lies behind the table. -/
structure ReadsTable (size : ℕ) (call : (ℕ → U8) → EMBErrorCode × (ℕ → U8)) (tbl buf : ℕ → U8)
    (p a n : ℕ) : Prop where
  status : (call tbl).1 = .noErr
  packed : PackedBits tbl buf p a n (call tbl).2
  behind : ∀ tbl' : ℕ → U8, (∀ i < size / 8, tbl' i = tbl i) → call tbl' = call tbl

theorem packedBits_readBits (tbl : ℕ → U8) (off : U16) {n : ℕ} (buf : ℕ → U8) (p : ℕ)
    (hoff : off.toNat + n ≤ 2 ^ 16) :
    PackedBits tbl buf p off.toNat n (readBits tbl off n buf p ((n + 7) / 8)) := by
  constructor
  · intro j hj k hk
    have hcell : p + j = p + (8 * j + k) / 8 := by omega
    have hbit : k = (8 * j + k) % 8 := by omega
    have hget := readBits_getLsbD tbl off n buf p (k := 8 * j + k) (by omega) hoff
    rw [← hcell, ← hbit] at hget
    rw [hget, Nat.add_assoc]
  · intro j hj
    exact readBits_outside _ _ _ _ _ _ _ hj

/-- The packed frame depends on the bits addressed only. -/
theorem PackedBits.congr {tbl tbl' buf out out' : ℕ → U8} {p a n : ℕ}
    (h : PackedBits tbl buf p a n out) (h' : PackedBits tbl' buf p a n out')
    (hbits : ∀ k < n, bitAt tbl' (a + k) = bitAt tbl (a + k)) : out' = out := by
  funext j
  by_cases hj : j < p ∨ p + (n + 7) / 8 ≤ j
  · rw [h.outside j hj, h'.outside j hj]
  · obtain ⟨i, rfl⟩ : ∃ i, j = p + i := ⟨j - p, by omega⟩
    apply BitVec.eq_of_getLsbD_eq
    intro k hk
    rw [h.inside i (by omega) k hk, h'.inside i (by omega) k hk]
    by_cases hkn : 8 * i + k < n
    · rw [Nat.add_assoc, hbits _ hkn]
    · simp [hkn]

theorem readsTable_of_eq {size : ℕ} {call : (ℕ → U8) → EMBErrorCode × (ℕ → U8)} (tbl buf : ℕ → U8)
    (p : ℕ) {a n : U16} (h8 : 8 ∣ size) (hS : size < 32768) (hfit : a.toNat + n.toNat ≤ size)
    (hcall : ∀ t, call t = (.noErr, readBits t a n.toNat buf p ((n.toNat + 7) / 8))) :
    ReadsTable size call tbl buf p a.toNat n.toNat := by
  have hpacked : ∀ t, PackedBits t buf p a.toNat n.toNat (call t).2 := by
    intro t
    rw [hcall]
    exact packedBits_readBits t a buf p (by omega)
  refine ⟨by rw [hcall], hpacked tbl, fun tbl' hsame => ?_⟩
  have hout : (call tbl').2 = (call tbl).2 := by
    apply (hpacked tbl).congr (hpacked tbl')
    intro k hk
    rw [bitAt, bitAt, hsame _ (by omega)]
  exact Prod.ext (by rw [hcall, hcall]) hout

theorem discreteCB_inside {sz : RegSizes} (r : Regs) (buf : ℕ → U8) (p : ℕ) {a n : U16}
    (hS : sz.discreteSize < 32768) (hfit : a.toNat + n.toNat ≤ sz.discreteSize) :
    eMBRegDiscreteCB sz r buf p a n =
      (.noErr, readBits r.ucRegDiscreteBuf a n.toNat buf p ((n.toNat + 7) / 8)) := by
  obtain ⟨hint, hrounds⟩ := bitRounds_eq (n := n) (by omega)
  rw [discreteCB_eq, if_pos ⟨by omega, hfit⟩, hint, hrounds]

/-- Both bit callbacks pack what they read, whatever lies behind the table. -/
theorem bitReads_packed (sz : RegSizes) (r : Regs) (buf : ℕ → U8) (p : ℕ) (a n : U16) :
    (8 ∣ sz.coilsSize → sz.coilsSize < 32768 → a.toNat + n.toNat ≤ sz.coilsSize →
      ReadsTable sz.coilsSize (fun tbl =>
          let res := eMBRegCoilsCB sz { r with ucRegCoilsBuf := tbl } buf p a n .read
          (res.1, res.2.1)) r.ucRegCoilsBuf buf p a.toNat n.toNat ∧
        (eMBRegCoilsCB sz r buf p a n .read).2.2 = r) ∧
    (8 ∣ sz.discreteSize → sz.discreteSize < 32768 → a.toNat + n.toNat ≤ sz.discreteSize →
      ReadsTable sz.discreteSize
        (fun tbl => eMBRegDiscreteCB sz { r with ucRegDiscreteBuf := tbl } buf p a n)
        r.ucRegDiscreteBuf buf p a.toNat n.toNat) := by
  constructor
  · intro h8 hS hfit
    constructor
    · apply readsTable_of_eq _ _ _ h8 hS hfit
      intro tbl
      rw [coilsCB_read_inside hS hfit]
    · rw [coilsCB_read_inside hS hfit]
  · intro h8 hS hfit
    apply readsTable_of_eq _ _ _ h8 hS hfit
    intro tbl
    rw [discreteCB_inside _ _ _ hS hfit]

/-- Nine bits from address 3 on, of tables of 16. -/
theorem bitReads_packed_nine :
    PackedBits Regs.start.ucRegCoilsBuf (fun _ => 0) 1 3 9
        (eMBRegCoilsCB regSizes Regs.start (fun _ => 0) 1 3 9 .read).2.1 ∧
      PackedBits Regs.start.ucRegDiscreteBuf (fun _ => 0) 1 3 9
        (eMBRegDiscreteCB regSizes Regs.start (fun _ => 0) 1 3 9).2 := by
  obtain ⟨hcoils, hdiscrete⟩ := bitReads_packed regSizes Regs.start (fun _ => 0) 1 3 9
  exact ⟨(hcoils (by decide) (by decide) (by decide)).1.packed,
    (hdiscrete (by decide) (by decide) (by decide)).packed⟩

section Traced

variable (tbl : Traced U8) (off : U16) (n : ℕ) (buf : ℕ → U8) (p rounds : ℕ)

theorem getBitsTraced_eq : xMBUtilGetBitsTraced tbl off n =
    (xMBUtilGetBits tbl.cells off n,
      ⟨tbl.cells, tbl.touched ++ [off.toNat / 8, off.toNat / 8 + 1]⟩) := by
  simp [xMBUtilGetBitsTraced, xMBUtilGetBits, wordBuf, Traced.read]

theorem setBitsTraced_cells (v : U8) :
    (xMBUtilSetBitsTraced tbl off n v).cells = xMBUtilSetBits tbl.cells off n v := by
  simp [xMBUtilSetBitsTraced, xMBUtilSetBits, wordBuf]

theorem mem_setBitsTraced {k : ℕ} (v : U8) : k ∈ (xMBUtilSetBitsTraced tbl off n v).touched ↔
    k ∈ tbl.touched ∨ k = off.toNat / 8 ∨ k = off.toNat / 8 + 1 := by
  simp only [xMBUtilSetBitsTraced, Traced.write_touched, Traced.read_touched, List.mem_append,
    List.mem_singleton]
  tauto

/-- Tracing changes nothing in what the loops do. -/
theorem readBitsTraced_fst :
    (readBitsTraced tbl off n buf p rounds).1 = readBits tbl.cells off n buf p rounds := by
  induction rounds generalizing tbl off n buf p with
  | zero => rfl
  | succ rounds ih => rw [readBitsTraced, readBits, ih, getBitsTraced_eq]

theorem writeBitsTraced_cells :
    (writeBitsTraced tbl off n buf p rounds).cells = writeBits tbl.cells off n buf p rounds := by
  induction rounds generalizing tbl n p with
  | zero => rfl
  | succ rounds ih => rw [writeBitsTraced, writeBits, ih, setBitsTraced_cells]

/-- A read of `rounds` chunks touches the bytes from that of the offset to the one behind
that of the last chunk. -/
theorem mem_readBitsTraced {k : ℕ} (hoff : off.toNat + 8 * rounds ≤ 2 ^ 16) :
    k ∈ (readBitsTraced tbl off n buf p rounds).2.touched ↔
      k ∈ tbl.touched ∨ 0 < rounds ∧ off.toNat / 8 ≤ k ∧ k ≤ off.toNat / 8 + rounds := by
  induction rounds generalizing tbl off n buf p with
  | zero => simp [readBitsTraced]
  | succ rounds ih =>
    rw [readBitsTraced, getBitsTraced_eq]
    rcases rounds.eq_zero_or_pos with rfl | hpos
    · simp only [readBitsTraced, List.mem_append, List.mem_cons, List.not_mem_nil, or_false]
      apply or_congr_right
      omega
    · have hnext : (off + 8).toNat = off.toNat + 8 := by
        rw [BitVec.toNat_add, show (8 : U16).toNat = 8 by rfl]
        omega
      rw [ih _ _ _ _ _ (by omega), hnext]
      simp only [List.mem_append, List.mem_cons, List.not_mem_nil, or_false, or_assoc]
      apply or_congr_right
      omega

/-- A write touches the two bytes of its window, however many chunks it has. -/
theorem mem_writeBitsTraced {k : ℕ} : k ∈ (writeBitsTraced tbl off n buf p rounds).touched ↔
    k ∈ tbl.touched ∨ 0 < rounds ∧ (k = off.toNat / 8 ∨ k = off.toNat / 8 + 1) := by
  induction rounds generalizing tbl n p with
  | zero => simp [writeBitsTraced]
  | succ rounds ih =>
    rw [writeBitsTraced, ih, mem_setBitsTraced]
    simp only [Nat.succ_pos, true_and]
    tauto

end Traced

/-- The traced callbacks do what the callbacks do. -/
theorem coilsCBTraced_fst (sz : RegSizes) (r : Regs) (buf : ℕ → U8) (p : ℕ) (a n : U16)
    (mode : EMBRegisterMode) :
    (coilsCBTraced sz r buf p a n mode).1 = eMBRegCoilsCB sz r buf p a n mode := by
  unfold coilsCBTraced eMBRegCoilsCB
  split_ifs with hin
  · cases mode with
    | read => simp [readBitsTraced_fst]
    | write => simp [writeBitsTraced_cells]
  · rfl

theorem discreteCBTraced_fst (sz : RegSizes) (r : Regs) (buf : ℕ → U8) (p : ℕ) (a n : U16) :
    (discreteCBTraced sz r buf p a n).1 = eMBRegDiscreteCB sz r buf p a n := by
  unfold discreteCBTraced eMBRegDiscreteCB
  split_ifs with hin
  · simp [readBitsTraced_fst]
  · rfl

def InsideTable (size : ℕ) (touched : List ℕ) : Prop := ∀ k ∈ touched, k < size / 8

/-- Nothing is addressed, or the last chunk (of a write, the only one) starts before the
last byte of the table. -/
def WindowInside (size a n : ℕ) : EMBRegisterMode → Prop
  | .read => n = 0 ∨ a + lastChunk n + 8 < size
  | .write => n = 0 ∨ a + 8 < size

theorem insideTable_read_iff {size : ℕ} (tbl buf : ℕ → U8) (p : ℕ) {a n : U16} (h8 : 8 ∣ size)
    (hS : size < 32768) (hfit : a.toNat + n.toNat ≤ size) :
    InsideTable size (readBitsTraced (Traced.start tbl) a n.toInt.toNat buf p
        (bitRounds n)).2.touched ↔
      WindowInside size a.toNat n.toNat .read := by
  obtain ⟨-, hrounds⟩ := bitRounds_eq (n := n) (by omega)
  have hmem : ∀ k, k ∈ (readBitsTraced (Traced.start tbl) a n.toInt.toNat buf p
      ((n.toNat + 7) / 8)).2.touched ↔
      0 < (n.toNat + 7) / 8 ∧ a.toNat / 8 ≤ k ∧ k ≤ a.toNat / 8 + (n.toNat + 7) / 8 := by
    intro k
    rw [mem_readBitsTraced _ _ _ _ _ _ (by omega)]
    simp
  simp only [InsideTable, WindowInside, lastChunk, hrounds, hmem]
  constructor
  · intro hall
    by_contra hout
    have hlast := hall (a.toNat / 8 + (n.toNat + 7) / 8) ⟨by omega, by omega, le_rfl⟩
    omega
  · intro hwin k hk
    omega

theorem insideTable_write_iff {size : ℕ} (tbl buf : ℕ → U8) (p : ℕ) {a n : U16} (h8 : 8 ∣ size)
    (hS : size < 32768) (hfit : a.toNat + n.toNat ≤ size) :
    InsideTable size (writeBitsTraced (Traced.start tbl) a n.toInt.toNat buf p
        (bitRounds n)).touched ↔
      WindowInside size a.toNat n.toNat .write := by
  obtain ⟨-, hrounds⟩ := bitRounds_eq (n := n) (by omega)
  simp only [InsideTable, WindowInside, hrounds, mem_writeBitsTraced, Traced.start_touched,
    List.not_mem_nil, false_or]
  constructor
  · intro hall
    by_contra hout
    have hsecond := hall (a.toNat / 8 + 1) ⟨by omega, Or.inr rfl⟩
    omega
  · intro hwin k hk
    omega

/-- A call that passes the range check stays inside its table exactly when its window does. -/
theorem touched_inside_iff (sz : RegSizes) (r : Regs) (buf : ℕ → U8) (p : ℕ) (a n : U16) :
    (∀ mode, 0 < sz.coilsSize → 8 ∣ sz.coilsSize → sz.coilsSize < 32768 → 0 ≤ a.toInt →
      a.toNat + n.toNat ≤ sz.coilsSize →
      (InsideTable sz.coilsSize (coilsCBTraced sz r buf p a n mode).2 ↔
        WindowInside sz.coilsSize a.toNat n.toNat mode)) ∧
    (0 < sz.discreteSize → 8 ∣ sz.discreteSize → sz.discreteSize < 32768 → 0 ≤ a.toInt →
      a.toNat + n.toNat ≤ sz.discreteSize →
      (InsideTable sz.discreteSize (discreteCBTraced sz r buf p a n).2 ↔
        WindowInside sz.discreteSize a.toNat n.toNat .read)) := by
  constructor
  · intro mode _ h8 hS ha hfit
    unfold coilsCBTraced
    simp only [if_pos (And.intro ha hfit)]
    cases mode with
    | read => exact insideTable_read_iff _ buf p h8 hS hfit
    | write => exact insideTable_write_iff _ buf p h8 hS hfit
  · intro _ h8 hS ha hfit
    rw [discreteCBTraced, if_pos ⟨ha, hfit⟩]
    exact insideTable_read_iff _ buf p h8 hS hfit

/-- A read of coil 8 of 16 is not inside: its window takes byte 2. -/
theorem touched_inside_iff_sixteen :
    ¬ InsideTable 16 (coilsCBTraced regSizes Regs.start (fun _ => 0) 0 8 1 .read).2 := by
  have hiff := (touched_inside_iff regSizes Regs.start (fun _ => 0) 0 8 1).1 .read
    (by decide) (by decide) (by decide) (by decide) (by decide)
  intro hin
  exact absurd (hiff.mp hin) (by unfold WindowInside lastChunk; decide)

theorem not_insideTable :
    ¬ ∀ (sz : RegSizes) (r : Regs) (buf : ℕ → U8) (p : ℕ) (a n : U16) (mode : EMBRegisterMode),
      0 < sz.coilsSize → 8 ∣ sz.coilsSize → sz.coilsSize < 32768 → 0 ≤ a.toInt →
      a.toNat + n.toNat ≤ sz.coilsSize →
      InsideTable sz.coilsSize (coilsCBTraced sz r buf p a n mode).2 := by
  intro hall
  have hin := hall regSizes Regs.start (fun _ => 0) 0 8 1 .read (by decide) (by decide)
    (by decide) (by decide) (by decide)
  exact absurd (hin 2 (by decide)) (by decide)

end Stm32F407
