import SoundLink.Frame.Detector
import SoundLink.Proofs.FixedPoint

namespace SoundLink

namespace Fixed

theorem within_eq_self {x : Fixed} (h : |x.units| ≤ 65536) : within (-1) 1 x = x := by
  rw [abs_le] at h
  have h₁ : ¬x < -1 := by
    rw [lt_iff, units_neg (by simp), units_one]
    omega
  have h₂ : ¬1 < x := by
    rw [lt_iff, units_one]
    omega
  simp [within, h₁, h₂]

end Fixed

/-- How far a peak lies towards the higher of its neighbours, in units. -/
def offsetAmount (near peak far : ℤ) : ℤ := 65536 - (peak + far) * 65536 / (peak + near)

theorem offsetAmount_nonneg {near peak far : ℤ} (h : far ≤ near) (hp : 0 < peak + near) :
    0 ≤ offsetAmount near peak far := by
  have hq : (peak + far) * 65536 / (peak + near) ≤ 65536 :=
    Int.ediv_le_of_le_mul hp (by nlinarith)
  unfold offsetAmount
  omega

theorem offsetAmount_le {near peak far : ℤ} (hp : 0 < peak + near) (hf : 0 ≤ peak + far) :
    offsetAmount near peak far ≤ 65536 := by
  have hq : 0 ≤ (peak + far) * 65536 / (peak + near) := Int.ediv_nonneg (by omega) hp.le
  unfold offsetAmount
  omega

theorem offsetAmount_mul_le {near peak : ℤ} (far : ℤ) (hp : 0 < peak + near) :
    offsetAmount near peak far * (peak + near) ≤ 65536 * (near - far) + (peak + near) := by
  have h := Int.lt_ediv_add_one_mul_self ((peak + far) * 65536) hp
  unfold offsetAmount
  nlinarith

theorem not_add_le_zero_iff {peak near : Fixed} (hpeak : 0 ≤ peak.units) (hnear : near.units ≤ peak.units) :
    ¬peak + near ≤ 0 ↔ 0 < peak.units + near.units ∧ peak.units + near.units < 2 ^ 31 := by
  have hl := peak.units_lt
  have hl' := near.le_units
  rw [Fixed.le_iff, Fixed.units_zero, not_le, Fixed.units_add_wrap, Int.bmod_def]
  push_cast
  split_ifs <;> omega

theorem units_add_of_pos {peak near : Fixed} (h : -peak.units ≤ near.units)
    (h' : near.units ≤ peak.units) (hpos : ¬peak + near ≤ 0) :
    (peak + near).units = peak.units + near.units := by
  obtain ⟨hpos, hfits⟩ := (not_add_le_zero_iff (by omega) h').1 hpos
  exact Fixed.units_add (by omega) hfits

theorem units_quotient_of_pos {peak near far : Fixed} (hle : far.units ≤ near.units)
    (hfar : -peak.units ≤ far.units) (hnear : near.units ≤ peak.units) (hpos : ¬peak + near ≤ 0) :
    0 < peak.units + near.units ∧
      ((peak + far).quotient (peak + near)).units =
        65536 - offsetAmount near.units peak.units far.units := by
  have hsum := units_add_of_pos (hfar.trans hle) hnear hpos
  rw [Fixed.le_iff, Fixed.units_zero, not_le, hsum] at hpos
  have hlt := (peak + near).units_lt
  have hfar' : (peak + far).units = peak.units + far.units := Fixed.units_add (by omega) (by omega)
  have hq : (peak.units + far.units) * 65536 / (peak.units + near.units) ≤ 65536 :=
    Int.ediv_le_of_le_mul hpos (by nlinarith)
  refine ⟨hpos, ?_⟩
  rw [Fixed.units_quotient (by omega) (by omega) (by rw [hsum, hfar']; omega), hsum, hfar',
    offsetAmount]
  ring

/-- A sum that wraps counts as no offset; every other offset is as in unbounded integers. -/
theorem units_estimateAdjustment {left peak right : Fixed}
    (hl : -peak.units ≤ left.units) (hl' : left.units ≤ peak.units)
    (hr : -peak.units ≤ right.units) (hr' : right.units ≤ peak.units) :
    (estimateAdjustment left peak right).units = 0 ∨
      right.units < left.units ∧ 0 < peak.units + left.units ∧
        (estimateAdjustment left peak right).units =
          offsetAmount left.units peak.units right.units ∨
      left.units ≤ right.units ∧ 0 < peak.units + right.units ∧
        (estimateAdjustment left peak right).units =
          -offsetAmount right.units peak.units left.units := by
  by_cases h : right < left
  · have hlt := (Fixed.lt_iff _ _).1 h
    by_cases hz : peak + left ≤ 0
    · left
      simp [estimateAdjustment, h, hz]
    · obtain ⟨hpos, hq⟩ := units_quotient_of_pos hlt.le hr hl' hz
      have h₀ := offsetAmount_nonneg hlt.le hpos
      have h₁ : offsetAmount left.units peak.units right.units ≤ 65536 :=
        offsetAmount_le hpos (by omega)
      have hs : (1 - (peak + right).quotient (peak + left)).units
          = offsetAmount left.units peak.units right.units := by
        rw [Fixed.units_sub] <;> rw [hq, Fixed.units_one] <;> omega
      refine .inr (.inl ⟨hlt, hpos, ?_⟩)
      simp only [estimateAdjustment, h, hz, if_true, if_false]
      rw [Fixed.within_eq_self (by rw [hs, abs_le]; omega), hs]
  · have hle := not_lt.1 (mt (Fixed.lt_iff _ _).2 h)
    by_cases hz : peak + right ≤ 0
    · left
      simp [estimateAdjustment, h, hz]
    · obtain ⟨hpos, hq⟩ := units_quotient_of_pos hle hl hr' hz
      have h₀ := offsetAmount_nonneg hle hpos
      have h₁ : offsetAmount right.units peak.units left.units ≤ 65536 :=
        offsetAmount_le hpos (by omega)
      have hs : ((peak + left).quotient (peak + right) - 1).units
          = -offsetAmount right.units peak.units left.units := by
        rw [Fixed.units_sub] <;> rw [hq, Fixed.units_one] <;> omega
      refine .inr (.inr ⟨hle, hpos, ?_⟩)
      simp only [estimateAdjustment, h, hz, if_false]
      rw [Fixed.within_eq_self (by rw [hs, abs_le]; omega), hs]

def Fixed.Reads (v : Fixed) (bit : Bool) : Prop :=
  if bit then -65536 ≤ v.units ∧ v.units < 0 else 0 < v.units ∧ v.units ≤ 65536

def tone (amplitude : Sample) (bit : Bool) : Sample := if bit then -amplitude else amplitude

/-- An offset to the left that lets no sample up to a level `A` drown the next one at level `a`. -/
def IsSmallOffset (a A t : ℤ) : Prop :=
  0 ≤ t ∧ t ≤ 65536 ∧ t * (a / 2 ^ 15 - -A / 2 ^ 15) ≤ 65536 * (a / 2 ^ 15) - 131072

theorem reads_of_weighted {v : Fixed} {x y p q : ℤ} (bit : Bool) (hx : |x| ≤ 65536)
    (hy : |y| ≤ 65536) (hp : 0 ≤ p) (hq : 0 ≤ q) (hpq : p + q = 65536)
    (hv : v.units = x * p / 65536 + y * q / 65536)
    (h : if bit then x * p + y * q < 0 else 131072 ≤ x * p + y * q) : v.Reads bit := by
  rw [abs_le] at hx hy
  have hxp : -65536 * p ≤ x * p := mul_le_mul_of_nonneg_right hx.1 hp
  have hxp' : x * p ≤ 65536 * p := mul_le_mul_of_nonneg_right hx.2 hp
  have hyq : -65536 * q ≤ y * q := mul_le_mul_of_nonneg_right hy.1 hq
  have hyq' : y * q ≤ 65536 * q := mul_le_mul_of_nonneg_right hy.2 hq
  cases bit <;> simp only [Fixed.Reads, hv] <;> simp at h ⊢ <;> omega

theorem tone_toInt {a : Sample} (ha : 0 < a.toInt) (bit : Bool) :
    (tone a bit).toInt = if bit then -a.toInt else a.toInt := by
  have h := a.toInt_lt
  cases bit
  · rfl
  · simp only [tone, if_true]
    rw [Int32.toInt_neg, bmod_32 (by omega) (by omega)]

theorem abs_tone {a : Sample} (ha : 0 ≤ a.toInt) (bit : Bool) : |(tone a bit).toInt| = a.toInt := by
  have h := a.toInt_lt
  cases bit
  · exact abs_of_nonneg ha
  · simp only [tone, if_true]
    rw [Int32.toInt_neg, bmod_32 (by omega) (by omega), abs_neg, abs_of_nonneg ha]

theorem lerp_reads_of_small {a prev : Sample} {A : ℤ} {phase : Fixed} (bit : Bool)
    (ha : 2 ^ 24 ≤ a.toInt) (hprev : |prev.toInt| ≤ A)
    (h : IsSmallOffset a.toInt A (65536 - phase.units)) :
    (Fixed.lerp (.ofSample prev) (.ofSample (tone a bit)) phase).Reads bit := by
  obtain ⟨h₀, h₁, h₂⟩ := h
  refine reads_of_weighted bit (Fixed.abs_units_ofSample _) (Fixed.abs_units_ofSample _) h₀
    (by omega) (by ring)
    (Fixed.units_lerp (Fixed.abs_units_ofSample _) (Fixed.abs_units_ofSample _)
      (by omega) (by omega)) ?_
  rw [Fixed.units_ofSample, Fixed.units_ofSample, tone_toInt (by omega)]
  rw [abs_le] at hprev
  generalize ht : 65536 - phase.units = t at h₀ h₁ h₂ ⊢
  rw [show phase.units = 65536 - t by omega]
  have hlow : -A / 2 ^ 15 ≤ prev.toInt / 2 ^ 15 := Int.ediv_le_ediv (by norm_num) (by omega)
  have hhigh : prev.toInt / 2 ^ 15 ≤ -(-A / 2 ^ 15) := by omega
  cases bit
  · simp only [Bool.false_eq_true, if_false]
    nlinarith
  · simp only [if_true]
    have hu : -a.toInt / 2 ^ 15 ≤ -(a.toInt / 2 ^ 15) := by omega
    nlinarith

theorem lerp_reads_of_late {a next : Sample} {phase : Fixed} (bit : Bool) (ha : 2 ^ 24 ≤ a.toInt)
    (hnext : |next.toInt| ≤ a.toInt) (h : 0 ≤ phase.units) (h' : phase.units ≤ 32608) :
    (Fixed.lerp (.ofSample (tone a bit)) (.ofSample next) phase).Reads bit := by
  refine reads_of_weighted bit (Fixed.abs_units_ofSample _) (Fixed.abs_units_ofSample _)
    (by omega) h (by ring)
    (Fixed.units_lerp (Fixed.abs_units_ofSample _) (Fixed.abs_units_ofSample _)
      (by omega) (by omega)) ?_
  rw [Fixed.units_ofSample, Fixed.units_ofSample, tone_toInt (by omega)]
  rw [abs_le] at hnext
  generalize phase.units = t at h h' ⊢
  have hlow : -(a.toInt / 2 ^ 15) - 1 ≤ next.toInt / 2 ^ 15 := by omega
  have hhigh : next.toInt / 2 ^ 15 ≤ a.toInt / 2 ^ 15 := Int.ediv_le_ediv (by norm_num) hnext.2
  have hu : 512 ≤ a.toInt / 2 ^ 15 := by omega
  cases bit
  · simp only [Bool.false_eq_true, if_false]
    nlinarith
  · simp only [if_true]
    have hneg : -a.toInt / 2 ^ 15 ≤ -(a.toInt / 2 ^ 15) := by omega
    nlinarith

theorem isSmallOffset_zero {a A : ℤ} (ha : 2 ^ 24 ≤ a) : IsSmallOffset a A 0 :=
  ⟨le_rfl, by norm_num, by omega⟩

/-- The neighbours of a peak differ by little more than one sample of data accounts for. -/
theorem isSmallOffset_offsetAmount {a A peak left right : ℤ} (ha : 2 ^ 24 ≤ a) (haA : a ≤ A)
    (hA : A < 2 ^ 31) (hpeak : 20 * (A * A) ≤ 2 ^ 46 * peak) (hleft : 0 ≤ left)
    (hright : 0 ≤ peak + right) (hlt : right < left)
    (hdiff : 2 ^ 47 * (left - right) ≤ 3 * (a * A)) :
    IsSmallOffset a A (offsetAmount left peak right) := by
  have hp : 0 < peak := by nlinarith
  have hD : 0 < peak + left := by omega
  refine ⟨offsetAmount_nonneg hlt.le hD, offsetAmount_le hD hright, ?_⟩
  have hmul := offsetAmount_mul_le right hD
  have ht := offsetAmount_nonneg hlt.le hD
  generalize offsetAmount left peak right = t at hmul ht ⊢
  obtain ⟨u, hu⟩ : ∃ u, u = a / 2 ^ 15 := ⟨_, rfl⟩
  obtain ⟨w, hw⟩ : ∃ w, w = a / 2 ^ 15 - -A / 2 ^ 15 := ⟨_, rfl⟩
  rw [← hw, ← hu]
  have hu₁ : a ≤ 2 ^ 16 * u := by omega
  have hu₂ : 512 ≤ u := by omega
  have hw₀ : 0 ≤ w := by omega
  have hw₁ : 2 ^ 15 * w ≤ 3 * A := by omega
  have hw₂ : w ≤ u + 65536 := by omega
  have hprod : (2 ^ 47 * (left - right)) * (2 ^ 15 * w) ≤ 3 * (a * A) * (3 * A) :=
    mul_le_mul hdiff hw₁ (by omega) (by nlinarith)
  have hprod' : a * (20 * (A * A)) ≤ 2 ^ 16 * u * (2 ^ 46 * (peak + left)) :=
    mul_le_mul hu₁ (by omega) (by nlinarith) (by omega)
  have hA₂ : 0 ≤ a * A * A := mul_nonneg (mul_nonneg (by omega) (by omega)) (by omega)
  have hkey : 65536 * ((left - right) * w) ≤ 60000 * (u * (peak + left)) := by nlinarith
  have hslack : 60000 * u ≤ 65536 * u - 131072 - w := by omega
  have hslack' := mul_le_mul_of_nonneg_right hslack hD.le
  have hmul' := mul_le_mul_of_nonneg_right hmul hw₀
  exact le_of_mul_le_mul_right (by nlinarith) hD

theorem offsetAmount_le_of_mul_le {peak left right : ℤ} (hleft : 0 ≤ left) (hD : 0 < peak + right)
    (h : 32928 * right ≤ 32608 * peak) : offsetAmount right peak left ≤ 32608 := by
  have hq : 32928 ≤ (peak + left) * 65536 / (peak + right) :=
    (Int.le_ediv_iff_mul_le hD).2 (by omega)
  unfold offsetAmount
  omega

end SoundLink
