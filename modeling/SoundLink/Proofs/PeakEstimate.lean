import SoundLink.Proofs.PeakOffset

namespace SoundLink

def held (x : ℤ) : ℤ := max (-65536) (min 65536 x)

theorem abs_held_le (x : ℤ) : |held x| ≤ 65536 := by
  rw [abs_le, held]
  omega

theorem Fixed.units_within (x : Fixed) : (within (-1) 1 x).units = held x.units := by
  have hneg : (-1 : Fixed).units = -65536 := rfl
  unfold within held
  split_ifs with hlow hhigh
  · rw [lt_iff, hneg] at hlow
    rw [hneg]
    omega
  · rw [lt_iff, units_one] at hhigh
    rw [units_one]
    omega
  · rw [lt_iff, hneg] at hlow
    rw [lt_iff, units_one] at hhigh
    omega

/-- By how much the power of a peak and its lower neighbour falls short of that of the peak and its
higher one, in units of the latter. -/
def shortfall (left peak right : ℤ) : ℤ :=
  65536 - ((peak + min left right) * 65536).tdiv (peak + max left right)

def tilt (left peak right : ℤ) : ℤ :=
  if right < left then shortfall left peak right else -shortfall left peak right

/-- The offset of a peak as it is specified: positive if the left neighbour is the higher one, and at
most one sample. -/
def peakOffset (left peak right : ℤ) : ℤ :=
  if peak + max left right ≤ 0 then 0
  else if right < left then min 65536 (shortfall left peak right)
  else -min 65536 (shortfall left peak right)

section

variable {left peak right : ℤ}

theorem tdiv_lt_or_eq {far near : ℤ} (hnear : 0 < near) (hle : far ≤ near) :
    far = near ∧ (far * 65536).tdiv near = 65536 ∨ far < near ∧ (far * 65536).tdiv near < 65536 := by
  rcases hle.eq_or_lt with rfl | hlt
  · exact .inl ⟨rfl, Int.mul_tdiv_cancel_left 65536 hnear.ne'⟩
  · refine .inr ⟨hlt, ?_⟩
    rcases Int.le_total 0 (far * 65536) with hfar | hfar
    · rw [Int.tdiv_eq_ediv_of_nonneg hfar]
      exact Int.ediv_lt_of_lt_mul hnear (by omega)
    · have hneg := Int.tdiv_nonneg (Int.neg_nonneg_of_nonpos hfar) hnear.le
      rw [Int.neg_tdiv] at hneg
      omega

theorem shortfall_comm (left peak right : ℤ) : shortfall right peak left = shortfall left peak right := by
  rw [shortfall, shortfall, min_comm, max_comm]

theorem shortfall_cases (hpos : 0 < peak + max left right) :
    left = right ∧ shortfall left peak right = 0 ∨ left ≠ right ∧ 0 < shortfall left peak right := by
  have hle : peak + min left right ≤ peak + max left right := by omega
  unfold shortfall
  rcases tdiv_lt_or_eq hpos hle with ⟨heq, hq⟩ | ⟨hlt, hq⟩ <;> omega

theorem peakOffset_eq_held (hpos : 0 < peak + max left right) :
    peakOffset left peak right = held (tilt left peak right) := by
  have h := shortfall_cases hpos
  rw [peakOffset, if_neg (by omega), tilt, held]
  split_ifs <;> omega

theorem peakOffset_eq_zero_iff (hpos : 0 < peak + max left right) :
    peakOffset left peak right = 0 ↔ left = right := by
  have hcases := shortfall_cases hpos
  rw [peakOffset, if_neg (not_le.2 hpos)]
  split_ifs <;> omega

theorem peakOffset_swap (left peak right : ℤ) :
    peakOffset right peak left = -peakOffset left peak right := by
  unfold peakOffset
  rw [max_comm right left, shortfall_comm]
  by_cases hpos : peak + max left right ≤ 0
  · rw [if_pos hpos, if_pos hpos, neg_zero]
  · have h := shortfall_cases (not_le.1 hpos)
    rw [if_neg hpos, if_neg hpos]
    split_ifs <;> omega

theorem peakOffset_nonneg (h : right < left) : 0 ≤ peakOffset left peak right := by
  unfold peakOffset
  split_ifs with hneg
  · exact le_rfl
  · have hcases := shortfall_cases (not_le.1 hneg)
    omega

theorem peakOffset_nonpos (h : left ≤ right) : peakOffset left peak right ≤ 0 := by
  unfold peakOffset
  split_ifs with hneg hlt
  · exact le_rfl
  · exact absurd h (not_le.2 hlt)
  · have hcases := shortfall_cases (not_le.1 hneg)
    omega

end

section

variable {left peak right : Fixed}

theorem units_ratio {near far : Fixed} (hpeak : 0 < peak.units) (hfar : far.units ≤ near.units)
    (hpos : 0 < peak.units + near.units) (hfits : peak.units + near.units < 2 ^ 31) :
    ((peak + far).quotient (peak + near)).units =
      (((peak.units + far.units) * 65536).tdiv (peak.units + near.units)).bmod (2 ^ 32) := by
  have hl := far.le_units
  rw [Fixed.units_quotient_wrap, Fixed.units_add (by omega) hfits,
    Fixed.units_add (by omega) (by omega)]

/-- The estimate for powers of any size: the shortfall as a word, held within one sample, where the
higher sum fits, and nothing where it does not. -/
theorem units_estimateAdjustment_wrap (hpeak : 0 < peak.units) (hleft : left.units ≤ peak.units)
    (hright : right.units ≤ peak.units) :
    (estimateAdjustment left peak right).units =
      if 0 < peak.units + max left.units right.units ∧
          peak.units + max left.units right.units < 2 ^ 31 then
        held ((tilt left.units peak.units right.units).bmod (2 ^ 32))
      else 0 := by
  by_cases h : right < left
  · have hlt := (Fixed.lt_iff _ _).1 h
    simp only [estimateAdjustment, h, if_true, tilt, shortfall, hlt, max_eq_left hlt.le,
      min_eq_right hlt.le, ← not_add_le_zero_iff hpeak.le hleft]
    by_cases hz : peak + left ≤ 0
    · rw [if_pos hz, if_neg (not_not.2 hz), Fixed.units_zero]
    · obtain ⟨hpos, hfits⟩ := (not_add_le_zero_iff hpeak.le hleft).1 hz
      rw [if_neg hz, if_pos hz, Fixed.units_within, Fixed.units_sub_wrap, Fixed.units_one,
        units_ratio hpeak hlt.le hpos hfits, Int.sub_bmod_bmod]
  · have hle := not_lt.1 (mt (Fixed.lt_iff _ _).2 h)
    simp only [estimateAdjustment, h, if_false, tilt, shortfall, not_lt.2 hle, max_eq_right hle,
      min_eq_left hle, ← not_add_le_zero_iff hpeak.le hright]
    by_cases hz : peak + right ≤ 0
    · rw [if_pos hz, if_neg (not_not.2 hz), Fixed.units_zero]
    · obtain ⟨hpos, hfits⟩ := (not_add_le_zero_iff hpeak.le hright).1 hz
      rw [if_neg hz, if_pos hz, Fixed.units_within, Fixed.units_sub_wrap, Fixed.units_one,
        units_ratio hpeak hle hpos hfits, Int.bmod_sub_bmod, neg_sub]

theorem units_estimateAdjustment_of_fits (hpeak : 0 < peak.units) (hleft : left.units ≤ peak.units)
    (hright : right.units ≤ peak.units) (hsum : peak.units + max left.units right.units < 2 ^ 31)
    (hshort : shortfall left.units peak.units right.units < 2 ^ 31) :
    (estimateAdjustment left peak right).units = peakOffset left.units peak.units right.units := by
  rw [units_estimateAdjustment_wrap hpeak hleft hright]
  by_cases hpos : 0 < peak.units + max left.units right.units
  · have hcases := shortfall_cases hpos
    rw [if_pos ⟨hpos, hsum⟩, peakOffset_eq_held hpos, bmod_32] <;> unfold tilt <;> split_ifs <;> omega
  · rw [if_neg (fun h ↦ hpos h.1), peakOffset, if_pos (not_lt.1 hpos)]

theorem units_estimateAdjustment_eq_iff (hpeak : 0 < peak.units) (hleft : left.units ≤ peak.units)
    (hright : right.units ≤ peak.units) :
    (estimateAdjustment left peak right).units =
        peakOffset left.units peak.units right.units ↔
      peak.units + max left.units right.units ≤ 0 ∨ left.units = right.units ∨
        peak.units + max left.units right.units < 2 ^ 31 ∧
          held ((tilt left.units peak.units right.units).bmod (2 ^ 32)) =
            held (tilt left.units peak.units right.units) := by
  rw [units_estimateAdjustment_wrap hpeak hleft hright]
  rcases le_or_gt (peak.units + max left.units right.units) 0 with hneg | hpos
  · rw [if_neg (by omega), peakOffset, if_pos hneg]
    exact iff_of_true rfl (.inl hneg)
  · rcases lt_or_ge (peak.units + max left.units right.units) (2 ^ 31) with hfits | hwide
    · have hsame : left.units = right.units → tilt left.units peak.units right.units = 0 := by
        have hcases := shortfall_cases hpos
        unfold tilt
        split_ifs <;> omega
      rw [if_pos ⟨hpos, hfits⟩, peakOffset_eq_held hpos]
      refine ⟨fun h ↦ .inr (.inr ⟨hfits, h⟩), ?_⟩
      rintro (hneg | heq | ⟨-, h⟩)
      · exact absurd hpos (not_lt.2 hneg)
      · rw [hsame heq]
        rfl
      · exact h
    · rw [if_neg (by omega), eq_comm, peakOffset_eq_zero_iff hpos]
      refine ⟨fun h ↦ .inr (.inl h), ?_⟩
      rintro (hneg | heq | ⟨hfits, -⟩)
      · exact absurd hpos (not_lt.2 hneg)
      · exact heq
      · exact absurd hfits (not_lt.2 hwide)

theorem abs_units_estimateAdjustment_le (left peak right : Fixed) :
    |(estimateAdjustment left peak right).units| ≤ 65536 := by
  have held_or_zero (c : Prop) [Decidable c] (x : Fixed) :
      |(if c then 0 else Fixed.within (-1) 1 x : Fixed).units| ≤ 65536 := by
    split_ifs
    · norm_num
    · rw [Fixed.units_within]
      exact abs_held_le _
  exact held_or_zero _ _

end

/-- What is estimated at a peak that is above zero, above its left neighbour and not below its right
one. It is the specified offset if and only if the sum of the peak and its higher neighbour is not
positive, or the neighbours are equal, or that sum fits a word and the shortfall, taken as a word, is
held at the same place. The last is so where the shortfall fits; there the estimate is on the side of
the higher neighbour, and exchanging the neighbours turns its sign. It is never more than one sample. -/
theorem estimateAdjustment_eq_peakOffset_iff {left peak right : Fixed} (hpeak : 0 < peak.units)
    (hleft : left.units < peak.units) (hright : right.units ≤ peak.units) :
    ((estimateAdjustment left peak right).units =
        peakOffset left.units peak.units right.units ↔
      peak.units + max left.units right.units ≤ 0 ∨ left.units = right.units ∨
        peak.units + max left.units right.units < 2 ^ 31 ∧
          held ((tilt left.units peak.units right.units).bmod (2 ^ 32)) =
            held (tilt left.units peak.units right.units)) ∧
    (peak.units + max left.units right.units < 2 ^ 31 →
      shortfall left.units peak.units right.units < 2 ^ 31 →
        (estimateAdjustment left peak right).units =
          peakOffset left.units peak.units right.units ∧
        (estimateAdjustment right peak left).units = -(estimateAdjustment left peak right).units ∧
        (right.units < left.units → 0 ≤ (estimateAdjustment left peak right).units) ∧
        (left.units ≤ right.units → (estimateAdjustment left peak right).units ≤ 0)) ∧
    |(estimateAdjustment left peak right).units| ≤ 65536 := by
  refine ⟨units_estimateAdjustment_eq_iff hpeak hleft.le hright, fun hsum hshort ↦ ?_,
    abs_units_estimateAdjustment_le left peak right⟩
  have hvalue := units_estimateAdjustment_of_fits hpeak hleft.le hright hsum hshort
  have hswap := units_estimateAdjustment_of_fits hpeak hright hleft.le
    (by rwa [max_comm]) (by rwa [shortfall_comm])
  rw [hvalue, hswap, peakOffset_swap left.units]
  exact ⟨rfl, rfl, peakOffset_nonneg, peakOffset_nonpos⟩

theorem estimateAdjustment_eq_peakOffset_iff_steep :
    (estimateAdjustment ⟨-200000⟩ ⟨300000⟩ ⟨100000⟩).units = -49152 ∧
      (estimateAdjustment ⟨100000⟩ ⟨300000⟩ ⟨-200000⟩).units = 49152 ∧
      peakOffset (-200000) 300000 100000 = -49152 := by
  obtain ⟨-, hfits, -⟩ := @estimateAdjustment_eq_peakOffset_iff ⟨-200000⟩ ⟨300000⟩ ⟨100000⟩
    (by decide) (by decide) (by decide)
  obtain ⟨hvalue, hswap, -⟩ := hfits (by decide) (by decide)
  have hoffset : peakOffset (-200000) 300000 100000 = -49152 := by decide
  rw [hvalue] at hswap
  exact ⟨hvalue.trans hoffset, hswap.trans (congrArg Neg.neg hoffset), hoffset⟩

/-- The sum of two powers that fit does not, and the offset of half a sample is not seen. A shortfall
that does not fit is lost, or changes its side. -/
theorem estimateAdjustment_overflow :
    (estimateAdjustment ⟨1073741824⟩ ⟨1073741825⟩ 0).units = 0 ∧
      peakOffset 1073741824 1073741825 0 = 32768 ∧
    (estimateAdjustment 0 ⟨1⟩ ⟨-2147483648⟩).units = 0 ∧ peakOffset 0 1 (-2147483648) = 65536 ∧
    (estimateAdjustment 0 ⟨1⟩ ⟨-32769⟩).units = -65536 ∧ peakOffset 0 1 (-32769) = 65536 := by
  decide

end SoundLink
