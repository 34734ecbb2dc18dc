import SoundLink.Config.Validity
import SoundLink.Proofs.LinkRoundTrip
import SoundLink.Proofs.Rounding

namespace SoundLink

open Binary

namespace Outcome

variable {ε α β : Type}

theorem bind_eq_ok {x : Outcome ε α} {f : α → Outcome ε β} {b : β} :
    (x >>= f) = .ok b ↔ ∃ a, x = .ok a ∧ f a = .ok b := by
  cases x <;> simp [bind, Except.bind]

theorem bind_unit_eq_ok {x : Outcome ε Unit} {f : Unit → Outcome ε β} {b : β} :
    (x >>= f) = .ok b ↔ x = .ok () ∧ f () = .ok b := by
  rw [bind_eq_ok]
  exact ⟨fun ⟨_, h⟩ ↦ h, fun h ↦ ⟨(), h⟩⟩

end Outcome

namespace Config

variable {field : String} {flaw : Flaw}

theorem require_eq_ok {holds : Bool} : require holds field flaw = .ok () ↔ holds = true := by
  cases holds <;> simp [require, Outcome.fail]

theorem counted_eq_ok {n k : ℕ} : counted n = .ok k ↔ n < 2 ^ 64 ∧ n = k := by
  by_cases h : n < UInt64.size
  · simp only [counted, if_pos h, Except.ok.injEq]
    exact ⟨fun hk ↦ ⟨h, hk⟩, fun hk ↦ hk.2⟩
  · simp only [counted, if_neg h, Outcome.fault, reduceCtorEq, false_iff]
    exact fun hlt ↦ h hlt.1

theorem toNat_pos_iff {n : UInt64} : 0 < n.toNat ↔ n ≠ 0 := by
  rw [Nat.pos_iff_ne_zero, ne_eq, ne_eq, ← UInt64.toNat_inj]
  rfl

structure IsAmplitude (x : Binary) : Prop where
  pos : (zero .double).lt x = true
  le_one : x.le (level 1 1) = true

theorem checkAmplitude_eq_ok {x : Binary} : checkAmplitude field x = .ok () ↔ IsAmplitude x := by
  rw [checkAmplitude, require_eq_ok, Bool.and_eq_true]
  exact ⟨fun ⟨h, h'⟩ ↦ ⟨h, h'⟩, fun h ↦ ⟨h.pos, h.le_one⟩⟩

theorem checkThreshold_eq_ok {x top : Binary} :
    checkThreshold field x top = .ok () ↔ (zero .double).lt x = true ∧ x.lt top = true := by
  rw [checkThreshold, require_eq_ok, Bool.and_eq_true]

theorem checkWindow_eq_ok {n : UInt64} :
    checkWindow field n = .ok () ↔ 0 < n.toNat ∧ n.toNat ≤ 32767 := by
  rw [checkWindow, Outcome.bind_unit_eq_ok, require_eq_ok, require_eq_ok, decide_eq_true_eq,
    decide_eq_true_eq, toNat_pos_iff]
  rfl

theorem checkCapacity_eq_ok {n : UInt64} : checkCapacity field n = .ok () ↔ 0 < n.toNat := by
  rw [checkCapacity, require_eq_ok, decide_eq_true_eq, toNat_pos_iff]

/-- The correlation of a preamble with itself, as the checks compute it. -/
def Preamble.gain (p : Preamble) : Binary :=
  Binary.mul .double (Binary.ofNat .double (SoundLink.Preamble.length p.ramp.toNat)) p.amplitude

structure Preamble.Valid (p : Preamble) : Prop where
  length_lt : SoundLink.Preamble.length p.ramp.toNat < 2 ^ 64
  threshold_pos : (zero .double).lt p.threshold = true
  threshold_lt : p.threshold.lt (Binary.mul .double p.gain p.amplitude) = true
  gain_lt : p.gain.lt (Binary.ofNat .double Fixed.maxInteger) = true

theorem Preamble.check_eq_ok_iff {p : Preamble} : p.check = .ok () ↔ p.Valid := by
  simp only [Preamble.check, Outcome.bind_eq_ok (α := ℕ), Outcome.bind_unit_eq_ok, counted_eq_ok,
    checkThreshold_eq_ok, require_eq_ok]
  constructor
  · rintro ⟨_, ⟨hlength, rfl⟩, ⟨hpos, hlt⟩, hgain⟩
    exact ⟨hlength, hpos, hlt, hgain⟩
  · intro h
    exact ⟨_, ⟨h.length_lt, rfl⟩, ⟨h.threshold_pos, h.threshold_lt⟩, h.gain_lt⟩

structure Phy.Valid (p : Phy) : Prop where
  bytesPerFrame_pos : 0 < p.bytesPerFrame.toNat
  bytesPerFrame_le : p.bytesPerFrame.toNat ≤ 127
  ramp_pos : 0 < p.preamble.ramp.toNat
  preamble_amplitude : IsAmplitude p.preamble.amplitude
  carrier_amplitude : IsAmplitude p.carrier.amplitude
  preamble : p.preamble.Valid
  size : 0 < p.carrier.size.toNat ∧ p.carrier.size.toNat ≤ 32767
  headerSize : 0 < p.carrier.headerSize.toNat ∧ p.carrier.headerSize.toNat ≤ 32767
  window : 0 < p.powerMonitor.window.toNat ∧ p.powerMonitor.window.toNat ≤ 32767
  monitor_threshold : (zero .double).lt p.powerMonitor.threshold = true ∧
    p.powerMonitor.threshold.lt (level 1 1) = true
  inputBuffer_pos : 0 < p.inputBuffer.toNat
  outputBuffer_pos : 0 < p.outputBuffer.toNat
  packetBuffer_pos : 0 < p.packetBuffer.toNat

theorem Phy.check_eq_ok_iff {p : Phy} : p.check = .ok () ↔ p.Valid := by
  simp only [Phy.check, Outcome.bind_unit_eq_ok, require_eq_ok, checkAmplitude_eq_ok,
    checkThreshold_eq_ok, checkWindow_eq_ok, checkCapacity_eq_ok, Preamble.check_eq_ok_iff,
    Bool.and_eq_true, decide_eq_true_eq, ← toNat_pos_iff]
  constructor
  · rintro ⟨⟨hpos, hle⟩, hramp, hpreamble, hcarrier, hcheck, hsize, hheader, hwindow, hmonitor,
      hin, hout, hpacket⟩
    exact ⟨hpos, hle, hramp, hpreamble, hcarrier, hcheck, hsize, hheader, hwindow, hmonitor, hin,
      hout, hpacket⟩
  · intro h
    exact ⟨⟨h.bytesPerFrame_pos, h.bytesPerFrame_le⟩, h.ramp_pos, h.preamble_amplitude,
      h.carrier_amplitude, h.preamble, h.size, h.headerSize, h.window, h.monitor_threshold,
      h.inputBuffer_pos, h.outputBuffer_pos, h.packetBuffer_pos⟩

theorem level_one : level 1 1 = .finite false (2 ^ 52) (-52) := by decide +kernel

theorem fullScale_eq : Sample.fullScale = .finite false (2147483647 * 2 ^ 22) (-22) := by
  decide +kernel

theorem peakSample_level_one : peakSample (level 1 1) = 2147483647 := by decide +kernel

theorem isAtMost_maxInteger : (Binary.ofNat .double Fixed.maxInteger).IsAtMost (32767 : ℕ) :=
  round_isAtMost Nat.one_pos (by norm_num) (by simp [Fixed.maxInteger])

theorem peakSample_nonneg {x : Binary} (hx : (zero .double).lt x = true) :
    0 ≤ (peakSample x).toInt := by
  rw [peakSample, fullScale_eq]
  exact nearestInt32_nonneg
    ((isAtLeast_zero_of_pos hx).mul (k := 0) (by norm_num) (by norm_num) (by simp))

theorem ofBinary_nonneg {x : Binary} (hx : (zero .double).lt x = true) :
    0 ≤ (Fixed.ofBinary x).units := by
  have hone : Binary.ofNat .double 65536 = .finite false (2 ^ 52) (-36) := by decide +kernel
  rw [Fixed.ofBinary, hone]
  exact nearestInt32_nonneg
    ((isAtLeast_zero_of_pos hx).mul (k := 0) (by norm_num) (by norm_num) (by simp))

theorem peakSample_lt {m : ℕ} {e : ℤ} (hle : (m : ℚ) * 2 ^ e ≤ 1) :
    ((peakSample (.finite false m e)).toInt : ℚ) < m * 2 ^ e * 2147483647 + 1 := by
  have hscale : ((2147483647 * 2 ^ 22 : ℕ) : ℚ) * 2 ^ (-22 : ℤ) = 2147483647 := by norm_num
  have hceil : ⌈(m : ℚ) * 2 ^ e * 2147483647⌉₊ ≤ 2147483647 :=
    Nat.ceil_le.2 (by push_cast; nlinarith)
  have hpeak : (peakSample (.finite false m e)).toInt ≤ ⌈(m : ℚ) * 2 ^ e * 2147483647⌉₊ := by
    rw [peakSample, fullScale_eq]
    refine nearestInt32_le (mul_isAtMost (by omega) ?_) (by omega)
    rw [hscale]
    exact Nat.le_ceil _
  calc ((peakSample (.finite false m e)).toInt : ℚ)
      ≤ (⌈(m : ℚ) * 2 ^ e * 2147483647⌉₊ : ℚ) := by exact_mod_cast hpeak
    _ < m * 2 ^ e * 2147483647 + 1 := Nat.ceil_lt_add_one (by positivity)

/-- The length of a preamble, as a double, is at least as long as an integer that a double holds. -/
theorem gain_isAtLeast {p : Preamble} {m k length : ℕ} {e : ℤ}
    (hamplitude : p.amplitude = .finite false m e) (hm : 0 < m) (hk : k ≤ 2 ^ 53)
    (hlength : length ≤ SoundLink.Preamble.length p.ramp.toNat) (hexact : length ≤ 2 ^ 53)
    (h : (k : ℚ) ≤ length * (m * 2 ^ e)) : p.gain.IsAtLeast k := by
  have hround : (Binary.ofNat .double (SoundLink.Preamble.length p.ramp.toNat)).IsAtLeast length :=
    round_isAtLeast Nat.one_pos hexact (by simpa using hlength)
  rw [Preamble.gain, hamplitude]
  exact hround.mul hm hk h

namespace Phy.Valid

variable {p : Phy} (h : p.Valid)
include h

theorem carrier_nonneg : 0 ≤ p.carrier.peak.toInt := peakSample_nonneg h.carrier_amplitude.pos

theorem preamble_nonneg : 0 ≤ p.preamble.peak.toInt := peakSample_nonneg h.preamble_amplitude.pos

theorem threshold_nonneg : 0 ≤ (Fixed.ofBinary p.preamble.threshold).units :=
  ofBinary_nonneg h.preamble.threshold_pos

theorem gain_lt {m length : ℕ} {e : ℤ} (hamplitude : p.preamble.amplitude = .finite false m e)
    (hm : 0 < m) (hlength : length ≤ SoundLink.Preamble.length p.preamble.ramp.toNat)
    (hexact : length ≤ 2 ^ 53) : length * ((m : ℚ) * 2 ^ e) < 32767 := by
  by_contra hle
  have hgain := gain_isAtLeast (k := 32767) hamplitude hm (by norm_num) hlength hexact
    (by push_cast; exact not_lt.1 hle)
  have hnot := not_lt_of_isAtLeast hgain isAtMost_maxInteger
  rw [h.preamble.gain_lt] at hnot
  cases hnot

theorem ramp_le (hfull : p.preamble.amplitude = level 1 1) : p.preamble.ramp.toNat ≤ 127 := by
  by_contra hlong
  have hn : 128 ≤ p.preamble.ramp.toNat := by omega
  have hlength : 32767 ≤ SoundLink.Preamble.length p.preamble.ramp.toNat := by
    rw [SoundLink.Preamble.length]
    nlinarith
  have hgain := h.gain_lt (hfull.trans level_one) (by norm_num) hlength (by norm_num)
  norm_num at hgain

/-- A preamble loud enough to be found has a correlation that no word of the search overflows. -/
theorem length_mul_peak_lt (hloud : 46341 ≤ p.preamble.peak.toInt) :
    SoundLink.Preamble.length p.preamble.ramp.toNat * p.preamble.peak.toInt < 2 ^ 46 := by
  obtain ⟨m, e, hamplitude, hm, hle⟩ :=
    exists_finite h.preamble_amplitude.pos h.preamble_amplitude.le_one level_one
  have hle' : (m : ℚ) * 2 ^ e ≤ 1 := by
    refine hle.trans ?_
    norm_num
  have hpeak := peakSample_lt hle'
  rw [← hamplitude, ← Config.Preamble.peak] at hpeak
  have hloud' : (46341 : ℚ) ≤ p.preamble.peak.toInt := by exact_mod_cast hloud
  generalize hL : SoundLink.Preamble.length p.preamble.ramp.toNat = length
  -- a longer preamble than this would leave fixed point even if it were cut off here
  have hshort : length < 2 ^ 31 := by
    by_contra hlong
    have hgain := h.gain_lt hamplitude hm (show 2 ^ 31 ≤ _ by omega) (by norm_num)
    push_cast at hgain
    nlinarith
  have hgain := h.gain_lt hamplitude hm hL.ge (by omega)
  have hshort' : (length : ℚ) < 2 ^ 31 := by exact_mod_cast hshort
  have hprod : (length : ℚ) * p.preamble.peak.toInt < 2 ^ 46 := by
    calc (length : ℚ) * p.preamble.peak.toInt
        ≤ length * (m * 2 ^ e * 2147483647 + 1) := by gcongr
      _ = length * (m * 2 ^ e) * 2147483647 + length := by ring
      _ < 32767 * 2147483647 + 2 ^ 31 := by gcongr
      _ ≤ 2 ^ 46 := by norm_num
  exact_mod_cast hprod

theorem clean (hramp : 3 ≤ p.preamble.ramp.toNat) (hramp' : p.preamble.ramp.toNat ≤ 127)
    (hcarrier : 2 ^ 24 ≤ p.carrier.peak.toInt)
    (hpreamble : p.carrier.peak.toInt ≤ p.preamble.peak.toInt) (hinterval : p.frameInterval ≠ 0)
    (hthreshold : (Fixed.ofBinary p.preamble.threshold).units <
      peakUnits p.preamble.ramp.toNat p.preamble.peak) : p.Clean where
  le_ramp := hramp
  ramp_le := hramp'
  le_carrier := hcarrier
  carrier_le := hpreamble
  size_pos := h.size.1
  size_le := h.size.2
  headerSize_pos := h.headerSize.1
  headerSize_le := h.headerSize.2
  bytesPerFrame_pos := h.bytesPerFrame_pos
  bytesPerFrame_le := h.bytesPerFrame_le
  frameInterval_pos := toNat_pos_iff.2 hinterval
  threshold_lt := hthreshold

end Phy.Valid

end Config

end SoundLink
