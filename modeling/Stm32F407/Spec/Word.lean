import Mathlib.Tactic

/-! The fixed-width integers of the C sources and the byte splitting that the
Modbus code does by shifts and masks. -/

namespace Stm32F407

abbrev U8 := BitVec 8
abbrev U16 := BitVec 16
abbrev U32 := BitVec 32

/-- `( USHORT )( hi << 8 ) | ( USHORT )lo`. -/
def be16 (hi lo : U8) : U16 := (hi.setWidth 16 <<< 8) ||| lo.setWidth 16

/-- `( UCHAR )( w >> 8 )`. -/
def hiByte (w : U16) : U8 := (w >>> 8).setWidth 8

/-- `( UCHAR )( w & 0xFF )`. -/
def loByte (w : U16) : U8 := (w &&& 0xFF).setWidth 8

theorem be16_toNat (hi lo : U8) : (be16 hi lo).toNat = 256 * hi.toNat + lo.toNat := by
  have hh := hi.isLt
  have hl := lo.isLt
  have hs : ((hi.setWidth 16 <<< 8 : U16)).toNat = 2 ^ 8 * hi.toNat := by
    simp only [BitVec.toNat_shiftLeft, BitVec.toNat_setWidth, Nat.shiftLeft_eq]
    omega
  have hw : (lo.setWidth 16 : U16).toNat = lo.toNat := by
    simp only [BitVec.toNat_setWidth]
    omega
  rw [be16, BitVec.toNat_or, hs, hw, ← Nat.two_pow_add_eq_or_of_lt (by omega)]

theorem hiByte_toNat (w : U16) : (hiByte w).toNat = w.toNat / 256 := by
  have h := w.isLt
  simp only [hiByte, BitVec.toNat_setWidth, BitVec.toNat_ushiftRight, Nat.shiftRight_eq_div_pow]
  omega

theorem loByte_toNat (w : U16) : (loByte w).toNat = w.toNat % 256 := by
  have h : (w &&& 0xFF).toNat = w.toNat % 2 ^ 8 := by
    rw [BitVec.toNat_and, ← Nat.and_two_pow_sub_one_eq_mod]
    rfl
  simp only [loByte, BitVec.toNat_setWidth, h]
  omega

@[simp] theorem hiByte_be16 (hi lo : U8) : hiByte (be16 hi lo) = hi := by
  apply BitVec.eq_of_toNat_eq
  have h := lo.isLt
  rw [hiByte_toNat, be16_toNat]
  omega

@[simp] theorem loByte_be16 (hi lo : U8) : loByte (be16 hi lo) = lo := by
  apply BitVec.eq_of_toNat_eq
  have h := lo.isLt
  rw [loByte_toNat, be16_toNat]
  omega

@[simp] theorem be16_split (w : U16) : be16 (hiByte w) (loByte w) = w := by
  apply BitVec.eq_of_toNat_eq
  rw [be16_toNat, hiByte_toNat, loByte_toNat]
  omega

theorem be16_inj {hi lo hi' lo' : U8} : be16 hi lo = be16 hi' lo' ↔ hi = hi' ∧ lo = lo' := by
  constructor
  · intro h
    exact ⟨by simpa using congrArg hiByte h, by simpa using congrArg loByte h⟩
  · rintro ⟨rfl, rfl⟩
    rfl

/-- A mask of one bit tests that bit. -/
theorem and_mask_ne_zero_iff {x m : U32} {i : ℕ} (hi : i < 32) (hm : m = BitVec.twoPow 32 i) :
    x &&& m ≠ 0 ↔ x.getLsbD i = true := by
  rw [hm, BitVec.and_twoPow]
  split_ifs with hbit
  · refine iff_of_true (fun hzero => ?_) hbit
    have hval := congrArg BitVec.toNat hzero
    rw [BitVec.toNat_twoPow, Nat.mod_eq_of_lt (Nat.pow_lt_pow_right (by omega) hi)] at hval
    exact absurd hval (by simp)
  · exact iff_of_false (fun hne => hne rfl) hbit

end Stm32F407
