import SoundLink.Proofs.Reference
import SoundLink.Proofs.Validity

namespace SoundLink

namespace Demodulator

/-- The place of the first candidate that is accepted, when the next sample has the place `j`. -/
def firstAccepted (d : Demodulator) (σ : State) (j : ℕ) : List Sample → Option ℕ
  | [] => none
  | s :: xs =>
    match (d.observe σ s).1.settled d.filter with
    | some c => some (j - c.distance)
    | none => firstAccepted d (d.step σ s).1 (j + 1) xs

def signal (xs : List Sample) (j : ℕ) : Sample := xs.getD j 0

variable {d : Demodulator} {x : ℕ → Sample} {xs : List Sample} {i j p : ℕ} {det : Detector}

theorem segment_signal (h : j ≤ xs.length) : segment (signal xs) 0 j = xs.take j := by
  refine List.ext_getElem (by simp [length_segment, h]) fun k hk _ ↦ ?_
  rw [length_segment] at hk
  have hlt : k < xs.length := by omega
  simp [segment, signal, List.getElem?_eq_getElem hlt]

theorem powerAt_signal (hspan : d.filter.span ≤ j + 1) (h : j < xs.length) :
    d.powerAt (signal xs) j = d.filter.power (xs.take (j + 1)).reverse := by
  rw [← segment_signal (Nat.succ_le_of_lt h), power_segment (by omega)]

theorem Hunts.firstAccepted (h : d.Hunts x i j det) (hp : d.IsLock x i p) (packet : List UInt8)
    (lastIndex : Option UInt8) {k : ℕ} (hk : p + d.filter.span < j + k) :
    d.firstAccepted ⟨.search det, packet, lastIndex⟩ j (segment x j (j + k)) = some p := by
  induction k generalizing j det with
  | zero => exact absurd hp.1 (h.unlocked p (by omega))
  | succ k ih =>
    rw [segment_cons x (by omega), Demodulator.firstAccepted]
    rcases h.push with ⟨hnext, hset⟩ | ⟨p', rfl, hp', hset⟩
    · have hobs : (d.observe ⟨.search det, packet, lastIndex⟩ (x j)).1.settled d.filter = none := by
        rw [observe_search]
        exact hset
      rw [hobs, step_of_settled_eq_none hobs, Nat.add_comm k, ← Nat.add_assoc]
      exact ih hnext (by omega)
    · have hobs : (d.observe ⟨.search det, packet, lastIndex⟩ (x (p' + d.filter.span))).1.settled
          d.filter = some (d.candidateAt x i p' (p' + d.filter.span + 1)) := by
        rw [observe_search]
        exact hset
      rw [hobs, hp'.unique hp]
      simp [candidateAt]

end Demodulator

/-- A preamble that a demodulator can find: nothing short of the whole of it matches as well, and
the threshold is lower. -/
structure Findable (n : ℕ) (A : Sample) (d : Demodulator) : Prop where
  tuned : Tuned n A d.filter
  ramp_pos : 0 < n
  threshold_lt : d.threshold.units < peakUnits n A
  prefix_lt : ∀ k < Preamble.length n,
    (d.filter.power ((Preamble.samples n A).take k).reverse).units < peakUnits n A

namespace Findable

open Demodulator

variable {n : ℕ} {A : Sample} {d : Demodulator} (h : Findable n A d)
variable {w q : ℕ} {after : List Sample}
include h

theorem length_pos : 0 < Preamble.length n := by
  have hn := h.ramp_pos
  rw [Preamble.length]
  positivity

theorem peakUnits_pos : 0 < peakUnits n A := by
  have hzero := h.prefix_lt 0 h.length_pos
  rwa [List.take_zero, List.reverse_nil, ← List.replicate_zero, h.tuned.power_zeros,
    Fixed.units_zero] at hzero

theorem powerAt_lt (hq : q + 1 < w + Preamble.length n) (hfull : d.filter.span ≤ q + 1) :
    (d.powerAt (signal (List.replicate w 0 ++ (Preamble.samples n A ++ after))) q).units <
      peakUnits n A := by
  have hpos := h.length_pos
  have hlen := Preamble.length_samples n A
  have htake : (List.replicate w 0 ++ (Preamble.samples n A ++ after)).take (q + 1) =
      List.replicate (min (q + 1) w) 0 ++ (Preamble.samples n A).take (q + 1 - w) := by
    have hle : q + 1 - w ≤ (Preamble.samples n A).length := by omega
    rw [List.take_append, List.take_replicate, List.length_replicate,
      List.take_append_of_le_length hle]
  rw [powerAt_signal hfull (by simp [hlen]; omega), htake, List.reverse_append,
    List.reverse_replicate, h.tuned.power_append_zeros]
  exact h.prefix_lt _ (by omega)

variable (after) in
theorem powerAt_peak :
    (d.powerAt (signal (List.replicate w 0 ++ (Preamble.samples n A ++ after)))
      (w + Preamble.length n - 1)).units = peakUnits n A := by
  have hpos := h.length_pos
  have hlen := Preamble.length_samples n A
  have hsucc : w + Preamble.length n - 1 + 1 = w + Preamble.length n := by omega
  rw [powerAt_signal (by rw [h.tuned.span_eq]; omega) (by simp [hlen]; omega), hsucc,
    ← List.append_assoc, List.take_left' (by simp [hlen]), List.reverse_append,
    List.reverse_replicate, ← h.tuned.taps_eq]
  exact h.tuned.power_taps _

theorem powerAt_le (hafter : ∀ s ∈ after, |s.toInt| ≤ A.toInt) (hfull : d.filter.span ≤ q + 1)
    (hq : q < w + (Preamble.length n + after.length)) :
    (d.powerAt (signal (List.replicate w 0 ++ (Preamble.samples n A ++ after))) q).units ≤
      peakUnits n A := by
  have hA := h.tuned.amplitude_pos
  have hlen := Preamble.length_samples n A
  rw [powerAt_signal hfull (by simpa [hlen] using hq)]
  refine h.tuned.power_le fun s hs ↦ ?_
  have hmem := List.mem_of_mem_take (List.mem_reverse.1 hs)
  rcases List.mem_append.1 hmem with hzero | hmem
  · rw [List.eq_of_mem_replicate hzero, Int32.toInt_zero, abs_zero]
    exact hA.le
  · rcases List.mem_append.1 hmem with hpre | hmem
    · exact (Preamble.abs_of_mem_samples hA hpre).le
    · exact hafter s hmem

variable (after) in
theorem powerAt_silence (hq : q < w) (hfull : d.filter.span ≤ q + 1) :
    d.powerAt (signal (List.replicate w 0 ++ (Preamble.samples n A ++ after))) q = 0 := by
  rw [powerAt_signal hfull (by simp; omega), List.take_append_of_le_length (by simpa using hq),
    List.take_replicate, List.reverse_replicate]
  exact h.tuned.power_zeros _

theorem not_isBest (hq : q + 1 < w + Preamble.length n) :
    ¬d.IsBest (signal (List.replicate w 0 ++ (Preamble.samples n A ++ after))) 0 q
      (q + d.filter.span + 1) := by
  intro hbest
  have hpeak := h.powerAt_peak (w := w) after
  have hspan := h.tuned.span_eq
  have hfull := hbest.full
  by_cases hnear : w + Preamble.length n - 1 < q + d.filter.span + 1
  · refine hbest.later _ (by omega) hnear ?_ ?_
    · rw [Fixed.lt_iff, hpeak]
      exact h.threshold_lt
    · rw [Fixed.lt_iff, hpeak]
      exact h.powerAt_lt hq (by omega)
  · have hzero := h.powerAt_silence (w := w) (q := q) after (by omega) (by omega)
    have habove := hbest.pos
    rw [hzero, Fixed.lt_iff] at habove
    exact lt_irrefl _ habove

theorem isLock (hafter : ∀ s ∈ after, |s.toInt| ≤ A.toInt)
    (hlen : Preamble.length n ≤ after.length) :
    d.IsLock (signal (List.replicate w 0 ++ (Preamble.samples n A ++ after))) 0
      (w + Preamble.length n - 1) := by
  have hpos := h.length_pos
  have hspan := h.tuned.span_eq
  have hpeak := h.powerAt_peak (w := w) after
  constructor
  · refine ⟨by omega, by omega, ?_, ?_, fun q hq hfull _ ↦ ?_, fun q hpq hq _ hlt ↦ ?_⟩
    · rw [Fixed.lt_iff, hpeak]
      exact h.threshold_lt
    · rw [Fixed.lt_iff, hpeak]
      exact h.peakUnits_pos
    · rw [Fixed.lt_iff, hpeak]
      exact h.powerAt_lt (by omega) (by omega)
    · rw [Fixed.lt_iff, hpeak] at hlt
      exact absurd hlt (not_lt.2 (h.powerAt_le hafter (by omega) (by omega)))
  · intro p hp
    by_contra hlt
    exact h.not_isBest (by omega) hp

theorem firstAccepted (hafter : ∀ s ∈ after, |s.toInt| ≤ A.toInt)
    (hlen : Preamble.length n ≤ after.length) :
    d.firstAccepted .initial 0 (List.replicate w 0 ++ (Preamble.samples n A ++ after)) =
      some (w + Preamble.length n - 1) := by
  have hpos := h.length_pos
  have hsamples := Preamble.length_samples n A
  have hall := segment_signal
    (le_refl (List.replicate w 0 ++ (Preamble.samples n A ++ after)).length)
  rw [List.take_length] at hall
  have hfound := (hunts_start d _ 0).firstAccepted (h.isLock (w := w) hafter hlen) [] none
    (k := (List.replicate w 0 ++ (Preamble.samples n A ++ after)).length)
    (by rw [h.tuned.span_eq]; simp [hsamples]; omega)
  rwa [Nat.zero_add, hall] at hfound

end Findable

theorem MatchedFilter.correlate_self_of_faint (sum : Int64) {as : List Sample}
    (h : ∀ a ∈ as, |a.toInt| ≤ 46340) : correlate sum as as = sum := by
  induction as generalizing sum with
  | nil => rfl
  | cons a as ih =>
    have ha := abs_le.1 (h a List.mem_cons_self)
    have hproduct : (a.toInt64 * a.toInt64) >>> 31 = 0 := by
      apply Int64.toInt_inj.1
      rw [toInt_mul_shiftRight a a 31 31 rfl]
      exact Int.ediv_eq_zero_of_lt (mul_self_nonneg _) (by nlinarith)
    rw [correlate, hproduct, Int64.add_zero]
    exact ih sum fun b hb ↦ h b (List.mem_cons_of_mem _ hb)

namespace Config.Phy

open Demodulator

variable {p : Phy}

theorem taps_demodulator (p : Phy) : p.demodulator.filter.taps = p.preambleSamples.reverse := rfl

theorem Valid.le_peak_of_lt (h : p.Valid)
    (hthreshold : p.demodulator.threshold <
      p.demodulator.filter.power p.preambleSamples.reverse) :
    46341 ≤ p.preamble.peak.toInt := by
  by_contra hfaint
  have hzero : p.demodulator.filter.power p.preambleSamples.reverse = 0 := by
    rw [MatchedFilter.power, taps_demodulator, MatchedFilter.correlate_self_of_faint]
    · rfl
    · intro a ha
      rw [List.mem_reverse] at ha
      rw [SoundLink.Preamble.abs_of_mem_samples_of_nonneg h.preamble_nonneg ha]
      omega
  have hnonneg := h.threshold_nonneg
  rw [hzero, Fixed.lt_iff] at hthreshold
  exact absurd hthreshold (not_lt.2 hnonneg)

theorem Valid.tuned (h : p.Valid) (hloud : 46341 ≤ p.preamble.peak.toInt) :
    Tuned p.preamble.ramp.toNat p.preamble.peak p.demodulator.filter where
  filter_eq := rfl
  amplitude_pos := by omega
  length_mul_lt := h.length_mul_peak_lt hloud

theorem power_preamble
    (h : Tuned p.preamble.ramp.toNat p.preamble.peak p.demodulator.filter) :
    (p.demodulator.filter.power p.preambleSamples.reverse).units =
      peakUnits p.preamble.ramp.toNat p.preamble.peak := by
  rw [← taps_demodulator, ← List.append_nil p.demodulator.filter.taps]
  exact h.power_taps []

/-- From a 256th of full scale on, no beginning of a preamble matches as well as the whole. -/
theorem Valid.prefix_lt (h : p.Valid) (hloud : 2 ^ 23 ≤ p.preamble.peak.toInt) {k : ℕ}
    (hk : k < p.preambleSamples.length) :
    p.demodulator.filter.power (p.preambleSamples.take k).reverse <
      p.demodulator.filter.power p.preambleSamples.reverse := by
  have htuned := h.tuned (by omega)
  have hgain : 2 ^ 15 ≤ p.preamble.peak.toInt * p.preamble.peak.toInt / 2 ^ 31 :=
    (Int.le_ediv_iff_mul_le (by norm_num)).2 (by nlinarith)
  rw [Fixed.lt_iff, power_preamble htuned]
  refine htuned.power_lt hgain (fun s hs ↦ ?_) ?_
  · have hmem := List.mem_of_mem_take (List.mem_reverse.1 hs)
    exact (SoundLink.Preamble.abs_of_mem_samples_of_nonneg h.preamble_nonneg hmem).le
  · rw [List.length_reverse, List.length_take, ← SoundLink.Preamble.length_samples _ p.preamble.peak]
    exact (min_le_left _ _).trans_lt hk

theorem Valid.findable (h : p.Valid)
    (hthreshold : p.demodulator.threshold <
      p.demodulator.filter.power p.preambleSamples.reverse)
    (hbeginning : ∀ k < p.preambleSamples.length,
      p.demodulator.filter.power (p.preambleSamples.take k).reverse <
        p.demodulator.filter.power p.preambleSamples.reverse) :
    Findable p.preamble.ramp.toNat p.preamble.peak p.demodulator := by
  have htuned := h.tuned (h.le_peak_of_lt hthreshold)
  refine ⟨htuned, h.ramp_pos, ?_, fun k hk ↦ ?_⟩
  · rw [← power_preamble htuned]
    exact (Fixed.lt_iff _ _).1 hthreshold
  · rw [← power_preamble htuned]
    refine (Fixed.lt_iff _ _).1 (hbeginning k ?_)
    rwa [preambleSamples, SoundLink.Preamble.length_samples]

end Config.Phy

/-- A checked link whose carrier is no louder than its preamble finds the preamble of a packet that
comes after as much silence, wherever fixed point tells the whole preamble from the threshold and
from what has been heard of it before. -/
theorem firstAccepted_sound (p : Config.Phy) (hp : p.check = .ok ())
    (hcarrier : p.carrier.peak ≤ p.preamble.peak)
    (hthreshold : p.demodulator.threshold <
      p.demodulator.filter.power p.preambleSamples.reverse)
    (hbeginning : ∀ k < p.preambleSamples.length,
      p.demodulator.filter.power (p.preambleSamples.take k).reverse <
        p.demodulator.filter.power p.preambleSamples.reverse)
    (bytes : List UInt8) (hne : bytes ≠ []) (hmax : bytes.length ≤ p.bytesPerFrame.toNat) :
    ∃ sound, p.modulator.modulate bytes = .ok sound ∧ ∀ tail,
      2 * p.preambleSamples.length ≤ sound.length + tail →
        p.demodulator.firstAccepted .initial 0
          (List.replicate p.preambleSamples.length 0 ++ sound ++ List.replicate tail 0) =
          some (2 * p.preambleSamples.length - 1) := by
  have hvalid := Config.Phy.check_eq_ok_iff.1 hp
  have hfound := hvalid.findable hthreshold hbeginning
  have hlength : p.preambleSamples.length = Preamble.length p.preamble.ramp.toNat :=
    Preamble.length_samples _ _
  obtain ⟨after, hafter⟩ : ∃ after, p.modulator.sound bytes = p.preambleSamples ++ after :=
    Modulator.sound_eq_append hvalid.bytesPerFrame_pos hne
  have hloud : ∀ s ∈ p.modulator.sound bytes, |s.toInt| ≤ p.preamble.peak.toInt := by
    intro s hs
    obtain ⟨⟨header, part⟩, -, hs⟩ := List.mem_flatMap.1 hs
    have hpre : ∀ s ∈ p.modulator.preamble, |s.toInt| ≤ p.preamble.peak.toInt := fun s hs ↦
      (Preamble.abs_of_mem_samples_of_nonneg hvalid.preamble_nonneg hs).le
    have hle : p.modulator.amplitude.toInt ≤ p.preamble.peak.toInt :=
      Int32.le_iff_toInt_le.1 hcarrier
    exact Modulator.abs_of_mem_frame hpre hvalid.carrier_nonneg hle hs
  have hframes : 0 < maxFrames := by decide
  have hbytes : bytes.length ≤ maxFrames * p.bytesPerFrame.toNat := by nlinarith
  refine ⟨p.modulator.sound bytes, Modulator.modulate_eq hvalid.bytesPerFrame_pos hbytes,
    fun tail htail ↦ ?_⟩
  have hquiet : ∀ s ∈ after ++ List.replicate tail 0, |s.toInt| ≤ p.preamble.peak.toInt := by
    intro s hs
    rcases List.mem_append.1 hs with hs | hs
    · exact hloud s (hafter ▸ List.mem_append_right _ hs)
    · rw [List.eq_of_mem_replicate hs, Int32.toInt_zero, abs_zero]
      exact hvalid.preamble_nonneg
  have hlong : Preamble.length p.preamble.ramp.toNat ≤ (after ++ List.replicate tail 0).length := by
    rw [hafter, List.length_append, hlength] at htail
    rw [List.length_append, List.length_replicate]
    omega
  have haccepted := hfound.firstAccepted (w := p.preambleSamples.length) hquiet hlong
  rw [hafter, List.append_assoc, List.append_assoc, two_mul]
  rw [← hlength] at haccepted
  exact haccepted

theorem firstAccepted_sound_default :
    ∃ sound, ({} : Config.Phy).modulator.modulate [1] = .ok sound ∧
      ({} : Config.Phy).demodulator.firstAccepted .initial 0
        (List.replicate 40 0 ++ sound ++ List.replicate 80 0) = some 79 := by
  have hp : ({} : Config.Phy).check = .ok () := by decide +kernel
  have hlength : ({} : Config.Phy).preambleSamples.length = 40 := by decide +kernel
  obtain ⟨sound, hsound, hfound⟩ := firstAccepted_sound {} hp (by decide +kernel)
    (by decide +kernel)
    (fun _ hk ↦ (Config.Phy.check_eq_ok_iff.1 hp).prefix_lt (by decide +kernel) hk) [1] (by decide)
    (by decide)
  rw [hlength] at hfound
  exact ⟨sound, hsound, hfound 80 (by omega)⟩

def Config.Phy.brief (ramp : UInt64) (preamble carrier threshold : Binary) : Config.Phy where
  preamble := ⟨ramp, preamble, threshold⟩
  carrier := ⟨carrier, 1, 1⟩

def Config.Phy.acceptedPlace (p : Config.Phy) (bytes : List UInt8) : Option ℕ :=
  p.demodulator.firstAccepted .initial 0
    (List.replicate p.preambleSamples.length 0 ++ p.modulator.sound bytes ++
      List.replicate (2 * p.preambleSamples.length) 0)

/-- Three checked links that do not accept the last sample of the preamble, which has the place 7, 7
and 223: a threshold that rounds to the power of the preamble, a carrier that is louder than the
preamble, and a preamble so faint that its power is reached one sample early. -/
theorem acceptedPlace_brief :
    ((Config.Phy.brief 1 (level 1 1) (level 1 1) (level 399999 100000)).check = .ok () ∧
      (Config.Phy.brief 1 (level 1 1) (level 1 1) (level 399999 100000)).acceptedPlace [1] =
        none) ∧
    ((Config.Phy.brief 1 (level 1 2) (level 1 1) (level 1 2)).check = .ok () ∧
      (Config.Phy.brief 1 (level 1 2) (level 1 1) (level 1 2)).acceptedPlace [1] = some 9) ∧
    ((Config.Phy.brief 7 (level 13 25000) (level 13 25000) (level 1 1000000)).check = .ok () ∧
      (Config.Phy.brief 7 (level 13 25000) (level 13 25000) (level 1 1000000)).acceptedPlace [1] =
        some 222) := by
  refine ⟨?_, ?_, ?_⟩
  · decide +kernel
  · decide +kernel
  · decide +kernel

end SoundLink
