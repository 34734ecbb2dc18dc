import SoundLink.Proofs.Integration
import SoundLink.Proofs.LinkRoundTrip

namespace SoundLink

theorem sum_readings_replicate (phase : Fixed) (a t y : Sample) (k : ℕ) :
    (readings phase a (List.replicate (k + 1) t ++ [y])).sum =
      blend phase.units (Fixed.ofSample a).units (Fixed.ofSample t).units +
        k * blend phase.units (Fixed.ofSample t).units (Fixed.ofSample t).units +
        blend phase.units (Fixed.ofSample t).units (Fixed.ofSample y).units := by
  induction k generalizing a with
  | zero => simp [readings]
  | succ k ih =>
    rw [List.replicate_succ, List.cons_append, readings, List.sum_cons, ih t]
    push_cast
    ring

section

variable {A : Sample} {phase : Fixed} {a y : Sample} {bit : Bool} {k : ℕ}

theorem Fixed.units_ofSample_bounds (h : |a.toInt| ≤ A.toInt) :
    -A.toInt / 2 ^ 15 ≤ (ofSample a).units ∧ (ofSample a).units ≤ A.toInt / 2 ^ 15 := by
  rw [abs_le] at h
  rw [units_ofSample]
  omega

/-- The sum over a bit has its sign if all samples but the one before the bit, or all but the last one,
are its tone: the one that is not is outweighed by two that are. -/
theorem sum_readings_neg_iff (hA : 2 ^ 24 ≤ A.toInt) (hphase : phase.IsPhase)
    (ha : |a.toInt| ≤ A.toInt) (hy : |y.toInt| ≤ A.toInt) (hk : 1 ≤ k)
    (hown : a = tone A bit ∨ y = tone A bit) :
    (readings phase a (List.replicate (k + 1) (tone A bit) ++ [y])).sum < 0 ↔ bit = true := by
  have ha' := Fixed.units_ofSample_bounds ha
  have hy' := Fixed.units_ofSample_bounds hy
  have ht : (Fixed.ofSample (tone A bit)).units =
      if bit then -A.toInt / 2 ^ 15 else A.toInt / 2 ^ 15 := by
    rw [Fixed.units_ofSample, tone_toInt (by omega)]
    split <;> rfl
  have hown' : (Fixed.ofSample a).units = (Fixed.ofSample (tone A bit)).units ∨
      (Fixed.ofSample y).units = (Fixed.ofSample (tone A bit)).units :=
    hown.imp (congrArg (Fixed.units ∘ Fixed.ofSample)) (congrArg (Fixed.units ∘ Fixed.ofSample))
  rw [sum_readings_replicate]
  generalize (Fixed.ofSample (tone A bit)).units = t at *
  have hfirst := blend_bounds (Fixed.ofSample a).units t hphase.1 hphase.2
  have hinner := blend_bounds t t hphase.1 hphase.2
  have hlast := blend_bounds t (Fixed.ofSample y).units hphase.1 hphase.2
  have hone : (1 : ℤ) ≤ k := by exact_mod_cast hk
  cases bit with
  | false =>
    rw [if_neg (by simp)] at ht
    have hmore : blend phase.units t t ≤ k * blend phase.units t t :=
      le_mul_of_one_le_left (by omega) hone
    simp only [Bool.false_eq_true, iff_false]
    omega
  | true =>
    rw [if_pos rfl] at ht
    have hmore : k * blend phase.units t t ≤ blend phase.units t t :=
      mul_le_of_one_le_left (by omega) hone
    simp only [iff_true]
    omega

theorem integral_neg_iff (hA : 2 ^ 24 ≤ A.toInt) (hphase : phase.IsPhase)
    (ha : |a.toInt| ≤ A.toInt) (hy : |y.toInt| ≤ A.toInt) (hk : 1 ≤ k) (hle : k + 2 ≤ 32767)
    (hown : a = tone A bit ∨ y = tone A bit) :
    Slicer.integral phase 0 (.ofSample a) (List.replicate (k + 1) (tone A bit) ++ [y]) < 0 ↔
      bit = true := by
  rw [Fixed.lt_iff, Fixed.units_zero, Slicer.units_integral hphase a (by simp; omega),
    sum_readings_neg_iff hA hphase ha hy hk hown]

variable {s : Sample} {last : Fixed} {xs : List Sample} {bits rest : List Bool} {size : ℕ}

/-- The tones of bits and one more sample, after a sample that is no louder. -/
def Behind (A s : Sample) (last : Fixed) (xs : List Sample) (bits : List Bool) : Prop :=
  ∃ a : Sample, |a.toInt| ≤ A.toInt ∧ last = .ofSample a ∧ xs = bits.map (tone A) ++ [s]

/-- The same samples, after the first of them. -/
def Ahead (A s : Sample) (last : Fixed) (xs : List Sample) (bits : List Bool) : Prop :=
  ∃ y, last = .ofSample y ∧ bits.map (tone A) ++ [s] = y :: xs

theorem Behind.spells (hA : 2 ^ 24 ≤ A.toInt) (hphase : phase.IsPhase) (hthree : 3 ≤ size)
    (hle : size ≤ 32767)
    (h : Behind A s last xs (bits.flatMap (List.replicate size) ++ rest)) :
    Spells phase size (Behind A s · · rest) last xs bits := by
  obtain ⟨k, rfl⟩ := Nat.exists_eq_add_of_le' (show 2 ≤ size by omega)
  induction bits generalizing last xs with
  | nil => exact h
  | cons b bits ih =>
    obtain ⟨a, ha, rfl, rfl⟩ := h
    have htone : |(tone A b).toInt| ≤ A.toInt := (abs_tone (by omega) b).le
    refine ⟨List.replicate (k + 1) (tone A b), tone A b, _, ?_, by rw [List.length_replicate],
      integral_neg_iff hA hphase ha htone (by omega) hle (.inr rfl), ih ⟨_, htone, rfl, rfl⟩⟩
    rw [List.flatMap_cons, List.append_assoc, List.map_append, List.map_replicate,
      List.replicate_succ', List.append_assoc, List.append_assoc, List.singleton_append]

theorem Ahead.spells (hA : 2 ^ 24 ≤ A.toInt) (hs : |s.toInt| ≤ A.toInt) (hphase : phase.IsPhase)
    (hthree : 3 ≤ size) (hle : size ≤ 32767)
    (h : Ahead A s last xs (bits.flatMap (List.replicate size) ++ rest)) :
    Spells phase size (Ahead A s · · rest) last xs bits := by
  obtain ⟨k, rfl⟩ := Nat.exists_eq_add_of_le' (show 2 ≤ size by omega)
  induction bits generalizing last xs with
  | nil => exact h
  | cons b bits ih =>
    obtain ⟨y, rfl, h⟩ := h
    rw [List.flatMap_cons, List.append_assoc, List.map_append, List.map_replicate,
      List.replicate_succ, List.cons_append, List.cons_append, List.append_assoc] at h
    obtain ⟨rfl, rfl⟩ := List.cons_eq_cons.1 h
    -- the bit ends with the first sample of what follows it
    obtain ⟨z, zs, hzs⟩ := List.exists_cons_of_ne_nil (l :=
      (bits.flatMap (List.replicate (k + 2)) ++ rest).map (tone A) ++ [s]) (by simp)
    have hz : |z.toInt| ≤ A.toInt := by
      have hmem : z ∈ (bits.flatMap (List.replicate (k + 2)) ++ rest).map (tone A) ++ [s] := by
        rw [hzs]
        exact List.mem_cons_self
      obtain hmem | hmem := List.mem_append.1 hmem
      · obtain ⟨b', -, rfl⟩ := List.mem_map.1 hmem
        exact (abs_tone (by omega) b').le
      · rwa [List.mem_singleton.1 hmem]
    have htone : |(tone A b).toInt| ≤ A.toInt := (abs_tone (by omega) b).le
    exact ⟨List.replicate (k + 1) (tone A b), z, zs, by rw [hzs], by rw [List.length_replicate],
      integral_neg_iff hA hphase htone hz (by omega) hle (.inl rfl), ih ⟨z, rfl, hzs⟩⟩

theorem legible_behind (hA : 2 ^ 24 ≤ A.toInt) (s : Sample) (hphase : phase.IsPhase) :
    Legible phase 3 (Behind A s) :=
  fun _ _ _ _ _ hthree hle h ↦ h.spells hA hphase hthree hle

theorem legible_ahead (hA : 2 ^ 24 ≤ A.toInt) (hs : |s.toInt| ≤ A.toInt) (hphase : phase.IsPhase) :
    Legible phase 3 (Ahead A s) :=
  fun _ _ _ _ _ hthree hle h ↦ h.spells hA hs hphase hthree hle

end

namespace Demodulator

/-- Starts a frame at a peak, the first of some samples, given how far before it the true one lies. -/
def lockAt (adjustment : Fixed) (σ : State) (samples : List Sample) : State × List Sample :=
  let skip := if 0 ≤ adjustment then 0 else 1
  let phase := if 0 ≤ adjustment then 1 - adjustment else -adjustment
  (⟨.extract (.start (.ofSample (samples.getD skip 0)) phase) (.header none), σ.packet, σ.lastIndex⟩,
    samples.drop (skip + 1))

theorem lock_eq_lockAt (σ : State) (c : Candidate) :
    ((lock σ c).1, (lock σ c).2.2) =
      lockAt (estimateAdjustment c.left c.peak (c.right.getD c.left)) σ c.since.reverse := rfl

theorem carries_singleton {d : Demodulator} (p : List UInt8) (i : Option UInt8) (s : Sample) :
    ∃ τ, d.Carries ⟨.search .start, p, i⟩ [s] [] τ := by
  refine ⟨_, carries_of_search (Detector.settled_eq_none fun c hc ↦ ?_) .nil⟩
  obtain ⟨hspan, -, hlen, hsuffix⟩ :=
    (Detector.keeps_start d.filter []).push d.threshold s c hc
  have hle := hsuffix.length_le
  rw [List.length_reverse, hlen] at hle
  simp only [List.nil_append, List.length_singleton] at hle
  omega

section

variable {d : Demodulator} {m : Modulator} {σ : State} {bytes : List UInt8} {peak s : Sample}
  {adjustment : Fixed}

theorem events_run_lockAt (hcrc : d.crc = m.crc) (hsize : d.size = m.size)
    (hheader : d.headerSize = m.headerSize) (hthree : 3 ≤ d.size) (hle : d.size ≤ 32767)
    (hhthree : 3 ≤ d.headerSize) (hhle : d.headerSize ≤ 32767)
    (hA : 2 ^ 24 ≤ m.amplitude.toInt) (hne : bytes ≠ []) (hmax : bytes.length ≤ 127)
    (hpeak : |peak.toInt| ≤ m.amplitude.toInt) (hs : |s.toInt| ≤ m.amplitude.toInt)
    (hadjustment : |adjustment.units| ≤ 65536) {heard : List Sample}
    (hheard : heard = (m.frameBits (.ofSize bytes.length true 0) bytes).map (tone m.amplitude)) :
    events (d.run (lockAt adjustment σ (peak :: heard ++ [s])).1
      (lockAt adjustment σ (peak :: heard ++ [s])).2).2 = [.packet bytes] := by
  have hlen : (FrameHeader.ofSize bytes.length true 0).size.toNat = bytes.length := toNat_ofSize hmax _ _
  have hevents (p : List UInt8) :
      frameEvents p (.ofSize bytes.length true 0) bytes ++ [] = [.packet bytes] := by
    simp [frameEvents, packetWith, FrameHeader.ofSize]
  by_cases hadj : 0 ≤ adjustment
  · obtain ⟨τ, hτ⟩ := carries_singleton (d := d) [] none s
    have hend : ∀ last ys, Behind m.amplitude s last ys [] → ys = [s] := by
      rintro last ys ⟨a, -, -, rfl⟩
      rfl
    have hreads := carries_frame_by (p := σ.packet) (i := σ.lastIndex)
      (legible_behind hA s (isPhase_of_nonneg hadj hadjustment)) hend hτ hcrc hsize hheader hthree hle
      hhthree hhle hlen hne hmax rfl _ _ ⟨peak, hpeak, rfl, rfl⟩
    rw [hevents] at hreads
    simp only [lockAt, if_pos hadj, hheard]
    exact hreads.2
  · have hend : ∀ last ys, Ahead m.amplitude s last ys [] → ys = [] := by
      rintro last ys ⟨y, -, h⟩
      exact (List.cons_eq_cons.1 h).2.symm
    obtain ⟨y, ys, hys⟩ := List.exists_cons_of_ne_nil (l := heard ++ [s]) (by simp)
    have hreads := carries_frame_by (p := σ.packet) (i := σ.lastIndex)
      (legible_ahead hA hs (isPhase_of_neg hadj hadjustment)) hend .nil hcrc hsize hheader hthree hle
      hhthree hhle hlen hne hmax rfl _ _ ⟨y, rfl, hheard ▸ hys⟩
    rw [hevents] at hreads
    simp only [lockAt, if_neg hadj, List.cons_append, hys]
    exact hreads.2

end

/-- With three samples or more to a bit, a frame is taken whatever the offset of its peak is estimated to
be: from the peak on, the samples of its header, its payload and its check and one sample more give its
packet and nothing else. So it is for the estimate of any candidate with these samples since its peak. -/
theorem events_run_of_offset {d : Demodulator} {m : Modulator} (hcrc : d.crc = m.crc)
    (hsize : d.size = m.size) (hheader : d.headerSize = m.headerSize) (hthree : 3 ≤ m.size)
    (hle : m.size ≤ 32767) (hhthree : 3 ≤ m.headerSize) (hhle : m.headerSize ≤ 32767)
    (hamplitude : 2 ^ 24 ≤ m.amplitude.toInt) {bytes : List UInt8} (hne : bytes ≠ [])
    (hmax : bytes.length ≤ 127) (hfits : bytes.length ≤ m.bytesPerFrame) {peak s : Sample}
    (hpeak : |peak.toInt| ≤ m.amplitude.toInt) (hs : |s.toInt| ≤ m.amplitude.toInt) (σ : State) :
    ∃ heard, m.modulate bytes = .ok (m.preamble ++ heard ++ List.replicate m.interval 0) ∧
      (∀ adjustment : Fixed, |adjustment.units| ≤ 65536 →
        events (d.run (lockAt adjustment σ (peak :: heard ++ [s])).1
          (lockAt adjustment σ (peak :: heard ++ [s])).2).2 = [.packet bytes]) ∧
      ∀ c : Candidate, c.since.reverse = peak :: heard ++ [s] →
        events (d.run (lock σ c).1 (lock σ c).2.2).2 = [.packet bytes] := by
  obtain ⟨heard, hheard⟩ :
    ∃ heard, heard = (m.frameBits (.ofSize bytes.length true 0) bytes).map (tone m.amplitude) := ⟨_, rfl⟩
  have htaken : ∀ adjustment : Fixed, |adjustment.units| ≤ 65536 →
      events (d.run (lockAt adjustment σ (peak :: heard ++ [s])).1
        (lockAt adjustment σ (peak :: heard ++ [s])).2).2 = [.packet bytes] := fun _ hadjustment ↦
    events_run_lockAt hcrc hsize hheader (hsize ▸ hthree) (hsize ▸ hle) (hheader ▸ hhthree)
      (hheader ▸ hhle) hamplitude hne hmax hpeak hs hadjustment hheard
  refine ⟨heard, ?_, htaken, fun c hc ↦ ?_⟩
  · rw [Modulator.modulate_of_le hne hfits, Modulator.frame_eq, hheard, List.append_assoc]
  · have hlock := lock_eq_lockAt σ c
    rw [Prod.mk.injEq] at hlock
    rw [hlock.1, hlock.2, hc]
    exact htaken _ (abs_units_estimateAdjustment_le _ _ _)

theorem events_run_of_offset_half :
    ∃ heard, ({} : Config.Phy).modulator.modulate [0, 255] =
        .ok (({} : Config.Phy).preambleSamples ++ heard ++ List.replicate 64 0) ∧
      events (({} : Config.Phy).demodulator.run
        (lockAt ⟨-32768⟩ .initial (2147483647 :: heard ++ [-2147483647])).1
        (lockAt ⟨-32768⟩ .initial (2147483647 :: heard ++ [-2147483647])).2).2 =
        [.packet [0, 255]] := by
  have hpeak : |(2147483647 : Sample).toInt| ≤ ({} : Config.Phy).modulator.amplitude.toInt := by
    decide +kernel
  have hs : |(-2147483647 : Sample).toInt| ≤ ({} : Config.Phy).modulator.amplitude.toInt := by
    decide +kernel
  have hne : ([0, 255] : List UInt8) ≠ [] := by decide
  obtain ⟨heard, hsound, htaken, -⟩ := events_run_of_offset (d := ({} : Config.Phy).demodulator)
    (m := ({} : Config.Phy).modulator) rfl rfl rfl (by decide) (by decide) (by decide) (by decide)
    (by decide +kernel) hne (by decide) (by decide) hpeak hs .initial
  exact ⟨heard, hsound, htaken ⟨-32768⟩ (by decide)⟩

end Demodulator

end SoundLink
