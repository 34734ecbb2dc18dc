import SoundLink.Fixed
import Mathlib.Tactic

namespace SoundLink

theorem toInt_shiftRight_32 (a : Int32) : (a >>> 15).toInt = a.toInt / 2 ^ 15 := by
  rw [← Int32.toInt_toBitVec, Int32.toBitVec_shiftRight, BitVec.toInt_sshiftRight',
    Int.shiftRight_eq_div_pow]
  rfl

theorem toInt_shiftRight_64 (a k : Int64) (n : ℕ) (h : (k.toBitVec.smod 64).toNat = n) :
    (a >>> k).toInt = a.toInt / 2 ^ n := by
  rw [← Int64.toInt_toBitVec, Int64.toBitVec_shiftRight, BitVec.toInt_sshiftRight',
    Int.shiftRight_eq_div_pow, Int64.toInt_toBitVec, h]
  norm_cast

theorem bmod_32 {x : ℤ} (h : -2 ^ 31 ≤ x) (h' : x < 2 ^ 31) : x.bmod (2 ^ 32) = x :=
  Int.bmod_eq_of_le (by omega) (by omega)

theorem bmod_64 {x : ℤ} (h : -2 ^ 63 ≤ x) (h' : x < 2 ^ 63) : x.bmod (2 ^ 64) = x :=
  Int.bmod_eq_of_le (by omega) (by omega)

theorem toInt_shiftLeft_64 (x : Int64) (h : -2 ^ 31 ≤ x.toInt) (h' : x.toInt < 2 ^ 31) :
    (x <<< 16).toInt = x.toInt * 65536 := by
  rw [← Int64.toInt_toBitVec, Int64.toBitVec_shiftLeft]
  change (x.toBitVec <<< 16).toInt = _
  rw [BitVec.shiftLeft_eq_mul_twoPow, BitVec.toInt_mul, Int64.toInt_toBitVec]
  exact bmod_64 (by change _ ≤ x.toInt * 65536; omega) (by change x.toInt * 65536 < _; omega)

theorem toInt_mul_shiftRight (a b : Int32) (k : Int64) (n : ℕ)
    (h : (k.toBitVec.smod 64).toNat = n) :
    ((a.toInt64 * b.toInt64) >>> k).toInt = a.toInt * b.toInt / 2 ^ n := by
  have ha := a.toInt_lt
  have ha' := a.le_toInt
  have hb := b.toInt_lt
  have hb' := b.le_toInt
  rw [toInt_shiftRight_64 _ _ _ h, Int64.toInt_mul, Int32.toInt_toInt64, Int32.toInt_toInt64,
    bmod_64 (by nlinarith) (by nlinarith)]

namespace Fixed

/-- A fixed-point number in units of 2^-16. -/
def units (a : Fixed) : ℤ := a.raw.toInt

variable (a b : Fixed)

theorem units_inj {a b : Fixed} (h : a.units = b.units) : a = b := by
  cases a
  cases b
  exact congrArg Fixed.mk (Int32.toInt_inj.1 h)

theorem units_lt : a.units < 2 ^ 31 := a.raw.toInt_lt

@[simp] theorem units_zero : (0 : Fixed).units = 0 := rfl

@[simp] theorem units_one : (1 : Fixed).units = 65536 := rfl

theorem lt_iff : a < b ↔ a.units < b.units := Int32.lt_iff_toInt_lt

theorem le_iff : a ≤ b ↔ a.units ≤ b.units := Int32.le_iff_toInt_le

theorem le_units : -2 ^ 31 ≤ a.units := a.raw.le_toInt

theorem units_add_wrap : (a + b).units = (a.units + b.units).bmod (2 ^ 32) := Int32.toInt_add _ _

theorem units_sub_wrap : (a - b).units = (a.units - b.units).bmod (2 ^ 32) := Int32.toInt_sub _ _

theorem units_quotient_wrap :
    (a.quotient b).units = ((a.units * 65536).tdiv b.units).bmod (2 ^ 32) := by
  have hl := a.units_lt
  have hl' := a.le_units
  have hr : a.raw.toInt64.toInt = a.units := Int32.toInt_toInt64 _
  have hs : (a.raw.toInt64 <<< 16).toInt = a.units * 65536 := by
    rw [toInt_shiftLeft_64 _ (by omega) (by omega), hr]
  have hq : ((a.units * 65536).tdiv b.units).natAbs ≤ (a.units * 65536).natAbs :=
    Int.natAbs_tdiv_le_natAbs _ _
  change ((a.raw.toInt64 <<< 16) / b.raw.toInt64).toInt32.toInt = _
  rw [Int64.toInt_toInt32, Int64.toInt_div, hs, Int32.toInt_toInt64]
  change (((a.units * 65536).tdiv b.units).bmod _).bmod _ = _
  rw [bmod_64 (by omega) (by omega)]

variable {a b}

theorem units_add (h : -2 ^ 31 ≤ a.units + b.units) (h' : a.units + b.units < 2 ^ 31) :
    (a + b).units = a.units + b.units := by
  rw [units_add_wrap, bmod_32 h h']

theorem units_sub (h : -2 ^ 31 ≤ a.units - b.units) (h' : a.units - b.units < 2 ^ 31) :
    (a - b).units = a.units - b.units := by
  rw [units_sub_wrap, bmod_32 h h']

theorem units_neg (h : -2 ^ 31 < a.units) : (-a).units = -a.units := by
  have hl := a.units_lt
  rw [show (-a).units = (-a.units).bmod (2 ^ 32) from Int32.toInt_neg _,
    bmod_32 (by omega) (by omega)]

theorem units_mul (h : -2 ^ 31 ≤ a.units * b.units / 65536)
    (h' : a.units * b.units / 65536 < 2 ^ 31) :
    (a * b).units = a.units * b.units / 65536 := by
  change ((a.raw.toInt64 * b.raw.toInt64) >>> 16).toInt32.toInt = _
  rw [Int64.toInt_toInt32, toInt_mul_shiftRight _ _ _ 16 rfl]
  exact bmod_32 h h'

theorem units_quotient (ha : 0 ≤ a.units) (hb : 0 < b.units)
    (h : a.units * 65536 / b.units < 2 ^ 31) :
    (a.quotient b).units = a.units * 65536 / b.units := by
  have hq : 0 ≤ a.units * 65536 / b.units := Int.ediv_nonneg (by omega) hb.le
  rw [units_quotient_wrap, Int.tdiv_eq_ediv_of_nonneg (by omega), bmod_32 (by omega) h]

theorem units_lerp {t : Fixed} (ha : |a.units| ≤ 65536) (hb : |b.units| ≤ 65536) (ht : 0 ≤ t.units)
    (ht' : t.units ≤ 65536) :
    (lerp a b t).units = a.units * (65536 - t.units) / 65536 + b.units * t.units / 65536 := by
  have h1 : (1 - t : Fixed).units = 65536 - t.units := units_sub (by simp; omega) (by simp; omega)
  have hx : |a.units * (65536 - t.units)| ≤ 65536 * 65536 := by
    rw [abs_mul]
    exact mul_le_mul ha (abs_le.2 ⟨by omega, by omega⟩) (abs_nonneg _) (by omega)
  have hy : |b.units * t.units| ≤ 65536 * 65536 := by
    rw [abs_mul]
    exact mul_le_mul hb (abs_le.2 ⟨by omega, by omega⟩) (abs_nonneg _) (by omega)
  rw [abs_le] at hx hy
  have e₁ : (a * (1 - t)).units = a.units * (65536 - t.units) / 65536 := by
    rw [units_mul] <;> rw [h1] <;> omega
  have e₂ : (b * t).units = b.units * t.units / 65536 := units_mul (by omega) (by omega)
  change (a * (1 - t) + b * t).units = _
  rw [units_add] <;> rw [e₁, e₂] <;> omega

theorem units_abs {a : Fixed} (h : -2 ^ 31 < a.units) : a.abs.units = |a.units| := by
  have hlowest : a.raw ≠ Int32.minValue := by
    intro hraw
    rw [units, hraw] at h
    exact absurd h (by decide)
  rw [abs, if_neg hlowest]
  split_ifs with hneg
  · have hneg' : a.units < 0 := Int32.lt_iff_toInt_lt.1 hneg
    rw [units_neg h, abs_of_neg hneg']
  · have hpos : 0 ≤ a.units := not_lt.1 fun hlt ↦ hneg (Int32.lt_iff_toInt_lt.2 hlt)
    rw [abs_of_nonneg hpos]

theorem units_ofInt_wrap (i : Int32) : (ofInt i).units = (i.toInt * 65536).bmod (2 ^ 32) := by
  change (i <<< 16).toInt = _
  rw [← Int32.toInt_toBitVec, Int32.toBitVec_shiftLeft]
  change (i.toBitVec <<< 16).toInt = _
  rw [BitVec.shiftLeft_eq_mul_twoPow, BitVec.toInt_mul, Int32.toInt_toBitVec]
  rfl

theorem units_ofSample (s : Sample) : (ofSample s).units = s.toInt / 2 ^ 15 := toInt_shiftRight_32 s

theorem abs_units_ofSample (s : Sample) : |(ofSample s).units| ≤ 65536 := by
  have h := s.toInt_lt
  have h' := s.le_toInt
  rw [units_ofSample, abs_le]
  omega

@[simp] theorem ofSample_zero : ofSample 0 = 0 := rfl

end Fixed

end SoundLink
