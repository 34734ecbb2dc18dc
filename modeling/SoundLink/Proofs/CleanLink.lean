import SoundLink.Frame.Demodulator
import SoundLink.Proofs.PeakOffset
import SoundLink.Proofs.PreambleShape

namespace SoundLink

open MatchedFilter

structure CleanLink (n : ℕ) (A : Sample) (m : Modulator) (d : Demodulator) : Prop where
  three_le : 3 ≤ n
  le_127 : n ≤ 127
  preamble_eq : m.preamble = Preamble.samples n A
  filter_eq : d.filter = .ofPreamble m.preamble
  le_amplitude : 2 ^ 24 ≤ m.amplitude.toInt
  amplitude_le : m.amplitude.toInt ≤ A.toInt
  crc_eq : d.crc = m.crc
  size_eq : d.size = m.size
  headerSize_eq : d.headerSize = m.headerSize
  size_pos : 0 < m.size
  size_le : m.size ≤ 32767
  headerSize_pos : 0 < m.headerSize
  headerSize_le : m.headerSize ≤ 32767
  bytesPerFrame_pos : 0 < m.bytesPerFrame
  bytesPerFrame_le : m.bytesPerFrame ≤ 127
  interval_pos : 0 < m.interval
  threshold_lt : d.threshold.units < Preamble.length n * (A.toInt * A.toInt / 2 ^ 31) / 2 ^ 15

def peakUnits (n : ℕ) (A : Sample) : ℤ := Preamble.length n * (A.toInt * A.toInt / 2 ^ 31) / 2 ^ 15

def besidePeak (n : ℕ) (A : Sample) : ℤ :=
  (Preamble.length n - 4 * n) * (A.toInt * A.toInt / 2 ^ 31) +
    (4 * n - 1) * (A.toInt * -A.toInt / 2 ^ 31)

theorem product_neg (A : Sample) : -(A.toInt * A.toInt / 2 ^ 31) - 1 ≤ A.toInt * -A.toInt / 2 ^ 31 ∧
    A.toInt * -A.toInt / 2 ^ 31 ≤ -(A.toInt * A.toInt / 2 ^ 31) := by
  rw [mul_neg]
  omega

theorem Preamble.length_cast (n : ℕ) : (Preamble.length n : ℤ) = 2 * n * (n + 1) := by
  rw [Preamble.length]
  push_cast
  rfl

/-- A filter for a preamble whose correlations fit into the words of the search. -/
structure Tuned (n : ℕ) (A : Sample) (f : MatchedFilter) : Prop where
  filter_eq : f = .ofPreamble (Preamble.samples n A)
  amplitude_pos : 0 < A.toInt
  length_mul_lt : Preamble.length n * A.toInt < 2 ^ 46

namespace Tuned

variable {n : ℕ} {A : Sample} {f : MatchedFilter} (h : Tuned n A f)
include h

theorem taps_eq : f.taps = (Preamble.samples n A).reverse := by
  rw [h.filter_eq]
  rfl

theorem length_taps : f.taps.length = Preamble.length n := by
  rw [h.taps_eq, List.length_reverse, Preamble.length_samples]

theorem span_eq : f.span = Preamble.length n := by rw [f.span_eq, h.length_taps]

theorem abs_of_mem_taps {s : Sample} (hs : s ∈ f.taps) : |s.toInt| = A.toInt := by
  rw [h.taps_eq, List.mem_reverse] at hs
  exact Preamble.abs_of_mem_samples h.amplitude_pos hs

theorem units_power (newest : List Sample) :
    (f.power newest).units = correlation newest f.taps / 2 ^ 15 := by
  refine MatchedFilter.units_power f newest (fun b hb ↦ (h.abs_of_mem_taps hb).le)
    h.amplitude_pos.le ?_
  rw [h.length_taps]
  exact h.length_mul_lt

theorem power_append_zeros (newest : List Sample) (k : ℕ) :
    f.power (newest ++ List.replicate k 0) = f.power newest := by
  apply Fixed.units_inj
  rw [h.units_power, h.units_power, correlation_append_replicate_zero]

theorem power_zeros (k : ℕ) : f.power (List.replicate k 0) = 0 := by
  apply Fixed.units_inj
  rw [h.units_power, correlation_replicate_zero]
  rfl

/-- Nothing up to the level of the preamble matches it better than itself. -/
theorem power_le {w : List Sample} (hw : ∀ s ∈ w, |s.toInt| ≤ A.toInt) :
    (f.power w).units ≤ peakUnits n A := by
  rw [h.units_power, correlation_comm, peakUnits]
  refine Int.ediv_le_ediv (by norm_num) ?_
  rw [← h.length_taps]
  exact correlation_le _ _ (fun s hs ↦ (h.abs_of_mem_taps hs).le) hw h.amplitude_pos.le

theorem power_taps (older : List Sample) : (f.power (f.taps ++ older)).units = peakUnits n A := by
  rw [h.units_power, correlation_append_left _ _ _ le_rfl,
    correlation_self f.taps (fun s hs ↦ h.abs_of_mem_taps hs), h.length_taps, peakUnits]

theorem power_lt (hgain : 2 ^ 15 ≤ A.toInt * A.toInt / 2 ^ 31) {xs : List Sample}
    (hxs : ∀ s ∈ xs, |s.toInt| ≤ A.toInt) (hl : xs.length < Preamble.length n) :
    (f.power xs).units < peakUnits n A := by
  have hc := correlation_le xs f.taps hxs (fun s hs ↦ (h.abs_of_mem_taps hs).le) h.amplitude_pos.le
  rw [h.units_power, peakUnits]
  have hl' : (xs.length : ℤ) + 1 ≤ Preamble.length n := by exact_mod_cast hl
  have hmul := mul_le_mul_of_nonneg_right hl' (show 0 ≤ A.toInt * A.toInt / 2 ^ 31 by omega)
  rw [add_mul, one_mul] at hmul
  omega

end Tuned

namespace CleanLink

variable {n : ℕ} {A : Sample} {m : Modulator} {d : Demodulator} (h : CleanLink n A m d)
include h

theorem le_peak : 2 ^ 24 ≤ A.toInt := h.le_amplitude.trans h.amplitude_le

theorem length_le : Preamble.length n ≤ 32512 := by
  have h₁ := h.le_127
  have h₂ : n * (n + 1) ≤ 127 * 128 := Nat.mul_le_mul h₁ (by omega)
  rw [Preamble.length, Nat.mul_assoc]
  omega

theorem le_length : 24 ≤ Preamble.length n := by
  have h₁ := h.three_le
  have h₂ : 3 * 4 ≤ n * (n + 1) := Nat.mul_le_mul h₁ (by omega)
  rw [Preamble.length, Nat.mul_assoc]
  omega

theorem tuned : Tuned n A d.filter where
  filter_eq := by rw [h.filter_eq, h.preamble_eq]
  amplitude_pos := by have hA := h.le_peak; omega
  length_mul_lt := by
    have hA := h.le_peak
    have hA' := A.toInt_lt
    have hl := h.length_le
    calc (Preamble.length n : ℤ) * A.toInt ≤ 32512 * A.toInt := by gcongr; exact_mod_cast hl
      _ < 2 ^ 46 := by omega

theorem taps_eq : d.filter.taps = (Preamble.samples n A).reverse := h.tuned.taps_eq

theorem span_eq : d.filter.span = Preamble.length n := h.tuned.span_eq

theorem abs_of_mem_taps {s : Sample} (hs : s ∈ d.filter.taps) : |s.toInt| = A.toInt :=
  h.tuned.abs_of_mem_taps hs

theorem length_taps : d.filter.taps.length = Preamble.length n := h.tuned.length_taps

theorem units_power (newest : List Sample) :
    (d.filter.power newest).units = correlation newest d.filter.taps / 2 ^ 15 :=
  h.tuned.units_power newest

theorem power_zeros (k : ℕ) : d.filter.power (List.replicate k 0) = 0 := h.tuned.power_zeros k

theorem power_le {w : List Sample} (hw : ∀ s ∈ w, |s.toInt| ≤ A.toInt) :
    (d.filter.power w).units ≤ peakUnits n A := h.tuned.power_le hw

theorem le_gain : 2 ^ 17 ≤ A.toInt * A.toInt / 2 ^ 31 := by
  have hA := h.le_peak
  exact (Int.le_ediv_iff_mul_le (by norm_num)).2 (by nlinarith)

theorem power_lt {xs : List Sample} (k : ℕ) (hxs : ∀ s ∈ xs, |s.toInt| ≤ A.toInt)
    (hl : xs.length < Preamble.length n) :
    (d.filter.power (xs ++ List.replicate k 0)).units < peakUnits n A := by
  have hq := h.le_gain
  rw [h.tuned.power_append_zeros]
  exact h.tuned.power_lt (by omega) hxs hl

theorem power_taps (older : List Sample) :
    (d.filter.power (d.filter.taps ++ older)).units = peakUnits n A := h.tuned.power_taps older

theorem correlation_tail_taps : correlation d.filter.taps.tail d.filter.taps = besidePeak n A := by
  have hn := h.three_le
  have hA := h.le_peak
  rw [h.taps_eq, Preamble.correlation_tail_taps (by omega) (by omega), besidePeak]

theorem power_before (k : ℕ) :
    (d.filter.power (d.filter.taps.tail ++ List.replicate k 0)).units =
      besidePeak n A / 2 ^ 15 := by
  rw [h.units_power, correlation_append_replicate_zero, h.correlation_tail_taps]

theorem taps_eq_cons : ∃ rest, d.filter.taps = -A :: rest := by
  obtain ⟨k, rfl⟩ := Nat.exists_eq_succ_of_ne_zero (show n ≠ 0 by have := h.three_le; omega)
  rw [h.taps_eq, Preamble.reverse_samples]
  exact ⟨_, by
    simp [Preamble.samples, Preamble.widths, Preamble.pulse, List.range_succ_eq_map]
    rfl⟩

theorem power_after (s : Sample) (older : List Sample) :
    (d.filter.power (s :: (d.filter.taps ++ older))).units =
      (s.toInt * -A.toInt / 2 ^ 31 + besidePeak n A) / 2 ^ 15 := by
  obtain ⟨rest, hr⟩ := h.taps_eq_cons
  have hA := h.le_peak
  have hshift : correlation (d.filter.taps ++ older) rest = besidePeak n A := by
    rw [correlation_append_left _ _ _ (by rw [hr]; simp), correlation_comm,
      ← h.correlation_tail_taps, hr]
    rfl
  rw [h.units_power]
  conv_lhs => rw [show correlation (s :: (d.filter.taps ++ older)) d.filter.taps =
    correlation (s :: (d.filter.taps ++ older)) (-A :: rest) by rw [← hr]]
  rw [correlation_cons, hshift, Preamble.toInt_neg_of_pos (by omega)]

theorem besidePeak_le :
    besidePeak n A ≤ (2 * n * n - 6 * n + 1) * (A.toInt * A.toInt / 2 ^ 31) := by
  have hn := h.three_le
  have hm := (product_neg A).2
  have hmul := mul_le_mul_of_nonneg_left hm (show 0 ≤ 4 * (n : ℤ) - 1 by omega)
  rw [besidePeak, Preamble.length_cast]
  nlinarith

theorem le_besidePeak : A.toInt * A.toInt / 2 ^ 31 - 507 ≤ besidePeak n A := by
  have hn : (3 : ℤ) ≤ n := by exact_mod_cast h.three_le
  have hn' : (n : ℤ) ≤ 127 := by exact_mod_cast h.le_127
  have hm := (product_neg A).1
  have hq := h.le_gain
  have hmul := mul_le_mul_of_nonneg_left hm (show 0 ≤ 4 * (n : ℤ) - 1 by omega)
  have hpoly : (1 : ℤ) ≤ 2 * n * n - 6 * n + 1 := by nlinarith
  have hpoly' := mul_le_mul_of_nonneg_right hpoly (show 0 ≤ A.toInt * A.toInt / 2 ^ 31 by omega)
  rw [besidePeak, Preamble.length_cast]
  nlinarith

theorem le_peakUnits : 20 * (A.toInt * A.toInt) ≤ 2 ^ 46 * peakUnits n A := by
  have hA := h.le_peak
  have hq := h.le_gain
  have hl : (24 : ℤ) ≤ Preamble.length n := by exact_mod_cast h.le_length
  have hmul := mul_le_mul_of_nonneg_right hl (show 0 ≤ A.toInt * A.toInt / 2 ^ 31 by omega)
  have hsq : 2 ^ 48 ≤ A.toInt * A.toInt := by nlinarith
  rw [peakUnits]
  omega

theorem product_tone (bit : Bool) :
    -(A.toInt * A.toInt / 2 ^ 31) - 1 ≤ (tone m.amplitude bit).toInt * -A.toInt / 2 ^ 31 ∧
      (tone m.amplitude bit).toInt * -A.toInt / 2 ^ 31 ≤ A.toInt * A.toInt / 2 ^ 31 ∧
      2 ^ 31 * ((tone m.amplitude bit).toInt * -A.toInt / 2 ^ 31) ≥
        -(m.amplitude.toInt * A.toInt) - 2 ^ 31 := by
  have hA := h.le_peak
  have ha := h.le_amplitude
  have haA := h.amplitude_le
  have hprod : m.amplitude.toInt * A.toInt ≤ A.toInt * A.toInt :=
    mul_le_mul_of_nonneg_right haA (by omega)
  have hprod' : 0 ≤ m.amplitude.toInt * A.toInt := mul_nonneg (by omega) (by omega)
  rw [tone_toInt (by omega)]
  cases bit
  · simp only [Bool.false_eq_true, if_false, mul_neg]
    omega
  · simp only [if_true, neg_mul_neg]
    omega

/-- How an offset beside a clean peak moves the samples that are read. -/
theorem offset {left peak right : Fixed} (bit : Bool) (hpeak : peak.units = peakUnits n A)
    (hleft : left.units = 0 ∨ left.units = besidePeak n A / 2 ^ 15)
    (hright : right.units =
      ((tone m.amplitude bit).toInt * -A.toInt / 2 ^ 31 + besidePeak n A) / 2 ^ 15) :
    IsSmallOffset m.amplitude.toInt A.toInt (estimateAdjustment left peak right).units ∨
      (estimateAdjustment left peak right).units < 0 ∧
        -32608 ≤ (estimateAdjustment left peak right).units := by
  have hA := h.le_peak
  have hA' := A.toInt_lt
  have ha := h.le_amplitude
  have haA := h.amplitude_le
  have hq := h.le_gain
  obtain ⟨hlow, hhigh, hscale⟩ := h.product_tone bit
  have hS := h.le_besidePeak
  have hS' := h.besidePeak_le
  have hP := h.le_peakUnits
  have hn : (3 : ℤ) ≤ n := by exact_mod_cast h.three_le
  have hn' : (n : ℤ) ≤ 127 := by exact_mod_cast h.le_127
  have hPdef : peakUnits n A = 2 * n * (n + 1) * (A.toInt * A.toInt / 2 ^ 31) / 2 ^ 15 := by
    rw [peakUnits, Preamble.length_cast]
  have hsq : 2 ^ 48 ≤ m.amplitude.toInt * A.toInt := by nlinarith
  generalize (tone m.amplitude bit).toInt * -A.toInt / 2 ^ 31 = e at *
  generalize hqq : A.toInt * A.toInt / 2 ^ 31 = q at *
  have hpoly : (2 * n * n - 6 * n + 1) * q + q ≤ 2 * n * (n + 1) * q - 22 * q := by nlinarith
  have hl₀ : 0 ≤ left.units := by omega
  have hlP : left.units ≤ peak.units := by omega
  have hr₀ : -1 ≤ right.units := by omega
  have hrP : right.units ≤ peak.units := by omega
  have hpos : 1 ≤ peak.units := by nlinarith
  obtain hz | ⟨hlt, hD, hadj⟩ | ⟨hle, hD, hadj⟩ :=
    units_estimateAdjustment (by omega) hlP (by omega) hrP
  · rw [hz]
    exact .inl (isSmallOffset_zero ha)
  · rw [hadj]
    refine .inl (isSmallOffset_offsetAmount ha haA hA' (by omega) hl₀ (by omega) hlt ?_)
    omega
  · have hlate : 32928 * right.units ≤ 32608 * peak.units := by
      have hbow : 716736 ≤ 32608 * (2 * (n : ℤ) * (n + 1)) - 32928 * (2 * n * n - 6 * n + 2) := by
        nlinarith
      have hbow' := mul_le_mul hbow hq (by norm_num) (by omega)
      rw [sub_mul] at hbow'
      have hsum : (2 * (n : ℤ) * n - 6 * n + 2) * q = (2 * n * n - 6 * n + 1) * q + q := by ring
      rw [mul_assoc 32608, mul_assoc 32928, hsum] at hbow'
      omega
    have hlow' := offsetAmount_le_of_mul_le hl₀ hD hlate
    have hge := offsetAmount_nonneg hle hD
    by_cases hzero : offsetAmount right.units peak.units left.units = 0
    · rw [hadj, hzero, neg_zero]
      exact .inl (isSmallOffset_zero ha)
    · right
      omega

end CleanLink

end SoundLink
