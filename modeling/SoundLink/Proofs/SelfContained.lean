import SoundLink.Proofs.Acceptance

namespace SoundLink

open Demodulator

/-- The offset that is estimated at the end of a preamble, from the silence before it and the sample
after it. -/
def Demodulator.drift (d : Demodulator) (silence : ℕ) (first : Sample) : Fixed :=
  estimateAdjustment (if silence = 0 then 0 else d.filter.power d.filter.taps.tail)
    (d.filter.power d.filter.taps) (d.filter.power (first :: d.filter.taps))

theorem take_silence (w k : ℕ) (xs : List Sample) :
    (List.replicate w 0 ++ xs).take (w + k) = List.replicate w 0 ++ xs.take k := by
  simp [List.take_append]

namespace Findable

variable {n : ℕ} {A : Sample} {d : Demodulator} (h : Findable n A d)
variable {w : ℕ} {first : Sample} {after : List Sample} {σ τ : State} {es : List Event}
include h

variable (w after) in
theorem powerAt_after {k : ℕ} (hk : k ≤ after.length) :
    d.powerAt (signal (List.replicate w 0 ++ (Preamble.samples n A ++ after)))
      (w + Preamble.length n + k - 1) = d.filter.power ((after.take k).reverse ++ d.filter.taps) := by
  have hpos := h.length_pos
  have hlen := Preamble.length_samples n A
  have hsucc : w + Preamble.length n + k - 1 + 1 = w + (Preamble.length n + k) := by omega
  have htake : (List.replicate w 0 ++ (Preamble.samples n A ++ after)).take
      (w + (Preamble.length n + k)) =
      List.replicate w 0 ++ (Preamble.samples n A ++ after.take k) := by
    rw [take_silence, ← hlen, List.take_length_add_append]
  rw [powerAt_signal (by rw [h.tuned.span_eq]; omega) (by simp [hlen]; omega), hsucc, htake,
    List.reverse_append, List.reverse_append, List.reverse_replicate, h.tuned.power_append_zeros,
    h.tuned.taps_eq]

theorem powerAt_before (hw : 0 < w) :
    d.powerAt (signal (List.replicate w 0 ++ (Preamble.samples n A ++ after)))
      (w + Preamble.length n - 1 - 1) = d.filter.power d.filter.taps.tail := by
  have hpos := h.length_pos
  have hlen := Preamble.length_samples n A
  have hsucc : w + Preamble.length n - 1 - 1 + 1 = w + (Preamble.length n - 1) := by omega
  have htake : (List.replicate w 0 ++ (Preamble.samples n A ++ after)).take
      (w + (Preamble.length n - 1)) = List.replicate w 0 ++ (Preamble.samples n A).dropLast := by
    rw [take_silence, List.take_append_of_le_length (by omega), List.dropLast_eq_take, hlen]
  rw [powerAt_signal (by rw [h.tuned.span_eq]; omega) (by simp [hlen]; omega), hsucc, htake,
    List.reverse_append, List.reverse_replicate, h.tuned.power_append_zeros, h.tuned.taps_eq,
    List.tail_reverse]

theorem offsetAt_eq : d.offsetAt
    (signal (List.replicate w 0 ++ (Preamble.samples n A ++ first :: after))) 0
      (w + Preamble.length n - 1) = d.drift w first := by
  have hpos := h.length_pos
  have hpeak := h.powerAt_after w (first :: after) (Nat.zero_le _)
  have hnext := h.powerAt_after w (first :: after) (k := 1) (by simp)
  rw [Nat.add_zero, List.take_zero, List.reverse_nil, List.nil_append] at hpeak
  rw [List.take_succ_cons, List.take_zero, List.reverse_singleton, List.singleton_append] at hnext
  have hsucc : w + Preamble.length n - 1 + 1 = w + Preamble.length n + 1 - 1 := by omega
  rw [offsetAt, drift, hpeak, hsucc, hnext, h.tuned.span_eq]
  by_cases hw : w = 0
  · rw [if_neg (by omega), if_pos hw]
  · rw [if_pos (by omega), if_neg hw, h.powerAt_before (by omega)]

theorem carries_of_entry (hσ : σ.phase = .search .start)
    (hafter : ∀ s ∈ after, |s.toInt| ≤ A.toInt) (hlen : Preamble.length n ≤ after.length)
    (hrun : d.Carries
      (d.entry (signal (List.replicate w 0 ++ (Preamble.samples n A ++ after))) 0
        (w + Preamble.length n - 1) σ).1
      ((List.replicate w 0 ++ (Preamble.samples n A ++ after)).drop
        (d.entry (signal (List.replicate w 0 ++ (Preamble.samples n A ++ after))) 0
          (w + Preamble.length n - 1) σ).2) es τ) :
    d.Carries σ (List.replicate w 0 ++ (Preamble.samples n A ++ after)) es τ := by
  obtain ⟨phase, packet, lastIndex⟩ := σ
  obtain rfl : phase = .search .start := hσ
  have hpos := h.length_pos
  have hspan := h.tuned.span_eq
  have hsamples := Preamble.length_samples n A
  have hlock := h.isLock (w := w) hafter hlen
  generalize hxs : List.replicate w 0 ++ (Preamble.samples n A ++ after) = xs at hrun hlock ⊢
  have hlength : xs.length = w + (Preamble.length n + after.length) := by
    rw [← hxs]
    simp [hsamples]
  have hall : segment (signal xs) 0 (0 + xs.length) = xs := by
    rw [Nat.zero_add, segment_signal le_rfl, List.take_length]
  have hcases := (hunts_start d (signal xs) 0).run packet lastIndex xs.length
  rw [hall] at hcases
  rcases hcases with ⟨υ, -, hnone⟩ | ⟨p, hp, -, hcarries⟩
  · have := hnone _ hlock
    omega
  · obtain rfl := hp.unique hlock
    refine hcarries es τ ?_
    have hle := (entry_le (d := d) (x := signal xs) (i := 0) (p := w + Preamble.length n - 1)
      (by omega) ⟨.search .start, packet, lastIndex⟩).2
    rw [hspan] at hle
    generalize (d.entry (signal xs) 0 (w + Preamble.length n - 1)
      ⟨.search .start, packet, lastIndex⟩).2 = j at hrun hle ⊢
    have hsplit := segment_append (signal xs) (Nat.zero_le j) (show j ≤ 0 + xs.length by omega)
    rw [hall, segment_signal (by omega)] at hsplit
    have hdrop : segment (signal xs) j (0 + xs.length) = xs.drop j :=
      List.append_cancel_left (hsplit.trans (List.take_append_drop j xs).symm)
    rwa [hdrop]

theorem carries_unconfirmed (hσ : σ.phase = .search .start) (hlen : after.length < Preamble.length n) :
    ∃ τ, d.Carries σ (List.replicate w 0 ++ (Preamble.samples n A ++ after)) [] τ := by
  obtain ⟨phase, packet, lastIndex⟩ := σ
  obtain rfl : phase = .search .start := hσ
  have hspan := h.tuned.span_eq
  have hsamples := Preamble.length_samples n A
  have hcases := (hunts_start d
    (signal (List.replicate w 0 ++ (Preamble.samples n A ++ after))) 0).run packet lastIndex
    (List.replicate w 0 ++ (Preamble.samples n A ++ after)).length
  rw [Nat.zero_add, segment_signal le_rfl, List.take_length] at hcases
  rcases hcases with ⟨υ, hυ, -⟩ | ⟨p, hp, hlt, -⟩
  · exact ⟨υ, hυ⟩
  · refine absurd hp.1 (h.not_isBest ?_)
    simp [hsamples] at hlt
    omega

end Findable

namespace Demodulator

variable {d : Demodulator} {stage : Stage} {p : List UInt8} {i : Option UInt8}

theorem carries_of_short {last phase sum : Fixed} {code : UInt16} {t j : ℕ} {xs : List Sample}
    (ht : t < d.sizeAt stage)
    (hlen : xs.length + t + j * d.sizeAt stage < LineCode.wordBits * d.sizeAt stage) :
    ∃ τ, d.Carries ⟨.extract ⟨last, phase, sum, t, code, j⟩ stage, p, i⟩ xs [] τ := by
  induction xs generalizing last sum code t j with
  | nil => exact ⟨_, .nil⟩
  | cons s xs ih =>
    rw [List.length_cons] at hlen
    by_cases hmore : t + 1 < d.sizeAt stage
    · exact d.inherits_silent.push (Slicer.push_of_lt s hmore) (ih hmore (by omega))
    · have hlt : (j + 1) * d.sizeAt stage < LineCode.wordBits * d.sizeAt stage := by
        rw [Nat.succ_mul]
        omega
      have hj : j + 1 < LineCode.wordBits := Nat.lt_of_mul_lt_mul_right hlt
      obtain ⟨bit, hbit⟩ : ∃ bit, sum + .lerp last (.ofSample s) phase < 0 ↔ bit = true :=
        ⟨decide (sum + .lerp last (.ofSample s) phase < 0), by simp⟩
      exact d.inherits_silent.push (Slicer.push_of_bit s (by omega) hbit hj)
        (ih (by omega) (by rw [Nat.succ_mul]; omega))

end Demodulator

namespace CleanLink

variable {n : ℕ} {A : Sample} {m : Modulator} {d : Demodulator} (h : CleanLink n A m d)
variable {w k : ℕ} {b : Bool} {bs : List Bool} {rest : List Sample} {σ υ : State} {es : List Event}
include h

theorem findable : Findable n A d where
  tuned := h.tuned
  ramp_pos := by have hn := h.three_le; omega
  threshold_lt := h.threshold_lt
  prefix_lt := by
    intro k hk
    have hlt := h.power_lt 0
      (show ∀ s ∈ ((Preamble.samples n A).take k).reverse, _ from
        fun s hs ↦ h.abs_of_mem_preamble (List.mem_of_mem_take (List.mem_reverse.1 hs)))
      (by rw [List.length_reverse, List.length_take]; omega)
    rwa [List.replicate_zero, List.append_nil] at hlt

theorem drift_cases (w : ℕ) (b : Bool) :
    IsSmallOffset m.amplitude.toInt A.toInt (d.drift w (tone m.amplitude b)).units ∨
      (d.drift w (tone m.amplitude b)).units < 0 ∧
        -32608 ≤ (d.drift w (tone m.amplitude b)).units := by
  have hpeak := h.power_taps []
  have hafter := h.power_after (tone m.amplitude b) []
  rw [List.append_nil] at hpeak hafter
  refine h.offset b hpeak ?_ hafter
  split_ifs
  · exact .inl rfl
  · have hbefore := h.power_before 0
    rw [List.replicate_zero, List.append_nil] at hbefore
    exact .inr hbefore

theorem signal_peak (w : ℕ) (after : List Sample) :
    signal (List.replicate w 0 ++ (Preamble.samples n A ++ after)) (w + Preamble.length n - 1) =
      -A := by
  obtain ⟨older, holder⟩ := h.taps_eq_cons
  have hpos := h.findable.length_pos
  have hlen := h.length_taps
  have hsamples : Preamble.samples n A = older.reverse ++ [-A] := by
    rw [← List.reverse_reverse (Preamble.samples n A), ← h.taps_eq, holder, List.reverse_cons]
  rw [holder, List.length_cons] at hlen
  have hplace : w + Preamble.length n - 1 = w + older.length := by omega
  rw [signal, hsamples, hplace]
  simp

theorem drop_peak (w : ℕ) (after : List Sample) :
    (List.replicate w 0 ++ (Preamble.samples n A ++ after)).drop (w + Preamble.length n - 1 + 1) =
      after := by
  have hpos := h.findable.length_pos
  have hplace : w + Preamble.length n - 1 + 1 =
      (List.replicate w (0 : Sample) ++ Preamble.samples n A).length := by
    rw [List.length_append, List.length_replicate, Preamble.length_samples]
    omega
  rw [hplace, ← List.append_assoc, List.drop_left]

theorem carries_of_drift_nonneg {first : Sample} {es : List Event} {τ : State}
    (hσ : σ.phase = .search .start) (hafter : ∀ s ∈ first :: rest, |s.toInt| ≤ A.toInt)
    (hlen : Preamble.length n ≤ (first :: rest).length) (hdrift : 0 ≤ d.drift w first)
    (hrun : d.Carries ⟨.extract (.start (.ofSample (-A)) (1 - d.drift w first)) (.header none),
      σ.packet, σ.lastIndex⟩ (first :: rest) es τ) :
    d.Carries σ (List.replicate w 0 ++ (Preamble.samples n A ++ first :: rest)) es τ := by
  refine h.findable.carries_of_entry hσ hafter hlen ?_
  rw [entry, h.findable.offsetAt_eq, if_pos hdrift, h.signal_peak, h.drop_peak]
  exact hrun

theorem carries_of_drift_neg {first : Sample} {es : List Event} {τ : State}
    (hσ : σ.phase = .search .start) (hafter : ∀ s ∈ first :: rest, |s.toInt| ≤ A.toInt)
    (hlen : Preamble.length n ≤ (first :: rest).length) (hdrift : ¬0 ≤ d.drift w first)
    (hrun : d.Carries ⟨.extract (.start (.ofSample first) (-d.drift w first)) (.header none),
      σ.packet, σ.lastIndex⟩ rest es τ) :
    d.Carries σ (List.replicate w 0 ++ (Preamble.samples n A ++ first :: rest)) es τ := by
  have hdrop := h.drop_peak w (first :: rest)
  have hnext : (List.replicate w 0 ++ (Preamble.samples n A ++ first :: rest)).drop
      (w + Preamble.length n - 1 + 2) = rest := by
    rw [← List.tail_drop, hdrop, List.tail_cons]
  have hfirst : signal (List.replicate w 0 ++ (Preamble.samples n A ++ first :: rest))
      (w + Preamble.length n - 1 + 1) = first := by
    rw [signal, List.getD_eq_getElem?_getD, ← List.head?_drop, hdrop, List.head?_cons,
      Option.getD_some]
  refine h.findable.carries_of_entry hσ hafter hlen ?_
  rw [entry, h.findable.offsetAt_eq, if_neg hdrift, hfirst, hnext]
  exact hrun

theorem tone_append_le (bits : List Bool) (k : ℕ) (hrest : ∀ s ∈ rest, |s.toInt| ≤ A.toInt) :
    ∀ s ∈ bits.map (tone m.amplitude) ++ (List.replicate k 0 ++ rest), |s.toInt| ≤ A.toInt := by
  have hA := h.le_peak
  intro s hs
  rcases List.mem_append.1 hs with hs | hs
  · obtain ⟨bit, -, rfl⟩ := List.mem_map.1 hs
    exact (h.abs_tone_le bit).trans h.amplitude_le
  · rcases List.mem_append.1 hs with hs | hs
    · rw [List.eq_of_mem_replicate hs, Int32.toInt_zero, abs_zero]
      omega
    · exact hrest s hs

/-- A fresh search reads the bits after a preamble, if enough samples follow and the last bit has
all the samples that it is read from. -/
theorem carries_bits_of_fresh (hσ : σ.phase = .search .start)
    (hrest : ∀ s ∈ rest, |s.toInt| ≤ A.toInt)
    (hlen : Preamble.length n ≤ (b :: bs).length + k + rest.length)
    (hread : 0 < k ∨ 0 ≤ d.drift w (tone m.amplitude b))
    (hdel : ∀ phase, d.Delivers phase (.header none) σ.packet σ.lastIndex (b :: bs) es υ) :
    ∃ w' ≤ k, ∀ fs τ, d.Carries υ (List.replicate w' 0 ++ rest) fs τ →
      d.Carries σ (List.replicate w 0 ++ (Preamble.samples n A ++
        ((b :: bs).map (tone m.amplitude) ++ (List.replicate k 0 ++ rest)))) (es ++ fs) τ := by
  have hloud := h.tone_append_le (b :: bs) k hrest
  have hlong : Preamble.length n ≤
      ((b :: bs).map (tone m.amplitude) ++ (List.replicate k 0 ++ rest)).length := by
    simp only [List.length_append, List.length_map, List.length_replicate]
    omega
  have hA := h.le_peak
  have hcases := h.drift_cases w b
  by_cases hdrift : 0 ≤ d.drift w (tone m.amplitude b)
  · have hpos := (Fixed.le_iff _ _).1 hdrift
    rw [Fixed.units_zero] at hpos
    have hsmall := hcases.resolve_right fun hneg ↦ absurd hpos (not_le.2 hneg.1)
    have hle := hsmall.2.1
    have hphase : (1 - d.drift w (tone m.amplitude b)).units =
        65536 - (d.drift w (tone m.amplitude b)).units :=
      Fixed.units_sub (by simp; omega) (by simp; omega)
    have hstart : |(-A).toInt| ≤ A.toInt := by
      rw [Preamble.toInt_neg_of_pos (by omega), abs_neg, abs_of_pos (by omega)]
    have hread := hdel _ _ _ (h.faithful_of_small (b :: bs) hstart
      (by rwa [hphase, sub_sub_cancel]))
    refine ⟨k, le_rfl, fun fs τ hfs ↦ ?_⟩
    exact h.carries_of_drift_nonneg hσ hloud hlong hdrift (hread.append hfs)
  · have hneg := not_le.1 (mt (Fixed.le_iff _ _).2 hdrift)
    obtain ⟨-, hlate⟩ := hcases.resolve_left fun hsmall ↦ absurd hsmall.1 (not_le.2 hneg)
    obtain ⟨j, rfl⟩ := Nat.exists_eq_succ_of_ne_zero (hread.resolve_right hdrift).ne'
    have hphase : (-d.drift w (tone m.amplitude b)).units =
        -(d.drift w (tone m.amplitude b)).units := Fixed.units_neg (by omega)
    rw [Fixed.units_zero] at hneg
    have hread := hdel _ _ _ (h.faithful_of_late b bs
      (show 0 ≤ (-d.drift w (tone m.amplitude b)).units by omega) (by omega))
    refine ⟨j, Nat.le_succ j, fun fs τ hfs ↦ ?_⟩
    refine h.carries_of_drift_neg hσ hloud hlong hdrift ?_
    have hall := hread.append hfs
    rw [List.append_assoc, List.singleton_append] at hall
    exact hall

theorem faithful_of_late_init {phase : Fixed} (hphase : 0 ≤ phase.units)
    (hphase' : phase.units ≤ 32608) (b : Bool) (bs : List Bool) :
    Faithful phase (.ofSample (tone m.amplitude b)) (bs.map (tone m.amplitude))
      (b :: bs).dropLast := by
  induction bs generalizing b with
  | nil => trivial
  | cons c bs ih =>
    exact ⟨lerp_reads_of_late b h.le_amplitude (h.abs_tone_le c) hphase hphase', ih c⟩

theorem carries_unread (hσ : σ.phase = .search .start)
    (hlen : Preamble.length n ≤ (b :: bs).length) (hdrift : ¬0 ≤ d.drift w (tone m.amplitude b))
    (hreads : ∀ phase, ReadsAs (fun σ xs ↦ ∃ τ, d.Carries σ xs [] τ) phase (.header none) σ.packet
      σ.lastIndex (b :: bs).dropLast) :
    ∃ τ, d.Carries σ (List.replicate w 0 ++ (Preamble.samples n A ++
      (b :: bs).map (tone m.amplitude))) [] τ := by
  have hneg := not_le.1 (mt (Fixed.le_iff _ _).2 hdrift)
  rw [Fixed.units_zero] at hneg
  obtain ⟨-, hlate⟩ := (h.drift_cases w b).resolve_left fun hsmall ↦
    absurd hsmall.1 (not_le.2 hneg)
  have hphase : (-d.drift w (tone m.amplitude b)).units =
      -(d.drift w (tone m.amplitude b)).units := Fixed.units_neg (by omega)
  have hloud := h.tone_append_le (b :: bs) 0 (show ∀ s ∈ ([] : List Sample), _ by simp)
  rw [List.replicate_zero, List.append_nil, List.append_nil] at hloud
  obtain ⟨τ, hτ⟩ := hreads _ _ _ (h.faithful_of_late_init
    (show 0 ≤ (-d.drift w (tone m.amplitude b)).units by omega) (by omega) b bs)
  exact ⟨τ, h.carries_of_drift_neg hσ hloud (by simpa using hlen) hdrift hτ⟩

end CleanLink

def FrameHeader.firstBit (h : FrameHeader) : Bool := (LineCode.encode (h.bytes.headD 0)).toNat.testBit 0

theorem length_eq_of_faithful {phase last : Fixed} {xs : List Sample} {bits : List Bool}
    (h : Faithful phase last xs bits) : xs.length = bits.length := by
  induction xs generalizing last bits with
  | nil =>
    cases bits with
    | nil => rfl
    | cons b bits => exact h.elim
  | cons s xs ih =>
    cases bits with
    | nil => exact h.elim
    | cons b bits => rw [List.length_cons, List.length_cons, ih h.2]

theorem isLast_frameAt {count j : ℕ} {part : List UInt8} (h : j + 1 = count) :
    (Modulator.frameAt count j part).1.isLast = true := by
  simp [Modulator.frameAt, FrameHeader.ofSize, h]

theorem isLast_frameAt_ne {count j : ℕ} {part : List UInt8} (h : j + 1 ≠ count) :
    ¬(Modulator.frameAt count j part).1.isLast = true := by
  simp [Modulator.frameAt, FrameHeader.ofSize, h]

theorem packetWith_frameAt {count j : ℕ} {p part : List UInt8} (h : j < 256) :
    packetWith p (Modulator.frameAt count j part).1 part = (if j = 0 then [] else p) ++ part := by
  simp only [packetWith, Modulator.frameAt, FrameHeader.ofSize, ofNat_eq_zero_iff h]

namespace Modulator

variable (m : Modulator) (header : FrameHeader) (payload : List UInt8)

theorem frameBits_eq_cons (hpos : 0 < m.headerSize) :
    ∃ bs, m.frameBits header payload = header.firstBit :: bs := by
  obtain ⟨j, hj⟩ := Nat.exists_eq_succ_of_ne_zero hpos.ne'
  simp [frameBits, FrameHeader.bytes, FrameHeader.firstBit, byteBits, LineCode.sent, LineCode.bits,
    LineCode.wordBits, List.range_succ_eq_map, hj, List.replicate_succ]

end Modulator

namespace CleanLink

variable {n : ℕ} {A : Sample} {m : Modulator} {d : Demodulator}
variable (h : CleanLink n A { m with interval := 1 } d)
variable {header : FrameHeader} {payload : List UInt8} {w : ℕ} {rest : List Sample} {σ : State}
include h

theorem frame_eq_of_clean (header : FrameHeader) (payload : List UInt8) :
    m.frame header payload = Preamble.samples n A ++
      ((m.frameBits header payload).map (tone m.amplitude) ++ List.replicate m.interval 0) := by
  have hpreamble : m.preamble = Preamble.samples n A := h.preamble_eq
  rw [Modulator.frame_eq, hpreamble]

theorem length_frameBits_of_clean (header : FrameHeader) (payload : List UInt8) :
    Preamble.length n + (m.frameBits header payload).length + m.interval =
      m.frameSamples payload.length := by
  have hpreamble : m.preamble = Preamble.samples n A := h.preamble_eq
  rw [← Preamble.length_samples n A, ← hpreamble, m.length_frameBits]

theorem delivers_of_clean (hlen : header.size.toNat = payload.length) (hne : payload ≠ [])
    (hmax : payload.length ≤ 127) {i : Option UInt8} (hfollows : follows i header.index = .ok ())
    (phase : Fixed) (p : List UInt8) :
    d.Delivers phase (.header none) p i (m.frameBits header payload) (frameEvents p header payload)
      (.afterFrame p header payload) :=
  delivers_frame (m := { m with interval := 1 }) h.crc_eq h.size_eq h.headerSize_eq
    (h.size_eq ▸ h.size_pos) (h.size_eq ▸ h.size_le) (h.headerSize_eq ▸ h.headerSize_pos)
    (h.headerSize_eq ▸ h.headerSize_le) hlen hne hmax hfollows

theorem reads_init (hlen : header.size.toNat = payload.length) (hne : payload ≠ [])
    (hmax : payload.length ≤ 127) {i : Option UInt8} (hfollows : follows i header.index = .ok ())
    (phase : Fixed) (p : List UInt8) :
    ReadsAs (fun σ xs ↦ ∃ τ, d.Carries σ xs [] τ) phase (.header none) p i
      (m.frameBits header payload).dropLast := by
  have hbyte := length_byteBits m.size (m.crc.checksum payload)
  have hword : byteBits m.size (m.crc.checksum payload) ≠ [] := by
    have hpos : 0 < m.size := h.size_pos
    rw [← List.length_pos_iff, hbyte, LineCode.wordBits]
    omega
  have hsize : d.size = m.size := h.size_eq
  have hdpos : 0 < d.size := h.size_eq ▸ h.size_pos
  rw [Modulator.frameBits, List.append_assoc, List.dropLast_append_of_ne_nil (by simp [hword]),
    List.dropLast_append_of_ne_nil hword]
  refine reads_frame (legible_faithful phase) d.inherits_silent h.size_eq h.headerSize_eq hdpos (h.size_eq ▸ h.size_le)
    (h.headerSize_eq ▸ h.headerSize_pos) (h.headerSize_eq ▸ h.headerSize_le) hlen hne hmax hfollows
    fun last xs hxs ↦ ?_
  have hshort := length_eq_of_faithful hxs
  have hpos : 0 < LineCode.wordBits * m.size := by
    rw [← hbyte]
    exact List.length_pos_iff.2 hword
  rw [List.length_dropLast, hbyte] at hshort
  refine carries_of_short (j := 0) hdpos ?_
  change xs.length + 0 + 0 * d.size < LineCode.wordBits * d.size
  rw [hsize]
  omega

variable (header rest) in
theorem carries_frame_of_fresh (hσ : σ.phase = .search .start)
    (hlen : header.size.toNat = payload.length) (hne : payload ≠ []) (hmax : payload.length ≤ 127)
    (hfollows : follows σ.lastIndex header.index = .ok ()) (hrest : ∀ s ∈ rest, |s.toInt| ≤ A.toInt)
    (hlong : 2 * Preamble.length n ≤ m.frameSamples payload.length + rest.length)
    (hread : 0 < m.interval ∨ 0 ≤ d.drift w (tone m.amplitude header.firstBit)) :
    ∃ w' ≤ m.interval, ∀ fs τ,
      d.Carries (.afterFrame σ.packet header payload) (List.replicate w' 0 ++ rest) fs τ →
        d.Carries σ (List.replicate w 0 ++ (m.frame header payload ++ rest))
          (frameEvents σ.packet header payload ++ fs) τ := by
  obtain ⟨bs, hbits⟩ := m.frameBits_eq_cons header payload h.headerSize_pos
  have hlength := h.length_frameBits_of_clean header payload
  have hdel := fun phase ↦ h.delivers_of_clean hlen hne hmax hfollows phase σ.packet
  rw [hbits] at hlength hdel
  obtain ⟨w', hw', hrun⟩ := h.carries_bits_of_fresh (w := w) (k := m.interval) hσ hrest (by omega)
    hread hdel
  refine ⟨w', hw', fun fs τ hfs ↦ ?_⟩
  rw [h.frame_eq_of_clean, hbits, List.append_assoc, List.append_assoc]
  exact hrun fs τ hfs

variable (header) in
theorem carries_last_frame (hσ : σ.phase = .search .start)
    (hlen : header.size.toNat = payload.length) (hne : payload ≠ []) (hmax : payload.length ≤ 127)
    (hfollows : follows σ.lastIndex header.index = .ok ()) :
    ∃ τ, d.Carries σ (List.replicate w 0 ++ m.frame header payload)
      (if 2 * Preamble.length n ≤ m.frameSamples payload.length ∧
          (0 < m.interval ∨ 0 ≤ d.drift w (tone m.amplitude header.firstBit))
        then frameEvents σ.packet header payload else []) τ := by
  have hlength := h.length_frameBits_of_clean header payload
  split_ifs with htaken
  · obtain ⟨hlong, hread⟩ := htaken
    obtain ⟨w', -, hrun⟩ := h.carries_frame_of_fresh header [] hσ hlen hne hmax hfollows (by simp)
      (by simpa using hlong) hread
    have hphase : (State.afterFrame σ.packet header payload).phase = .search .start := by
      unfold State.afterFrame
      split <;> rfl
    obtain ⟨τ, -, -, -, hquiet⟩ := h.quiet_zeros w' (quiet_of_start (d := d) hphase)
    have hall := hrun [] τ (by rwa [List.append_nil])
    rw [List.append_nil, List.append_nil] at hall
    exact ⟨τ, hall⟩
  · rw [h.frame_eq_of_clean]
    by_cases hlong : 2 * Preamble.length n ≤ m.frameSamples payload.length
    · obtain ⟨hgap, hdrift⟩ := not_or.1 fun hread ↦ htaken ⟨hlong, hread⟩
      have hinterval : m.interval = 0 := by omega
      obtain ⟨bs, hbits⟩ := m.frameBits_eq_cons header payload h.headerSize_pos
      rw [hinterval, List.replicate_zero, List.append_nil, hbits]
      rw [hbits] at hlength
      refine h.carries_unread hσ (by omega) hdrift fun phase ↦ ?_
      rw [← hbits]
      exact h.reads_init hlen hne hmax hfollows phase σ.packet
    · refine h.findable.carries_unconfirmed hσ ?_
      rw [List.length_append, List.length_map, List.length_replicate]
      omega

theorem abs_of_mem_frame_of_clean {s : Sample} (hs : s ∈ m.frame header payload) :
    |s.toInt| ≤ A.toInt := by
  rw [h.frame_eq_of_clean] at hs
  rcases List.mem_append.1 hs with hs | hs
  · exact h.abs_of_mem_preamble hs
  · exact h.tone_append_le _ m.interval (show ∀ s ∈ ([] : List Sample), _ by simp) s
      (by simpa using hs)

theorem length_le_of_frames (fs : List (FrameHeader × List UInt8)) (hne : fs ≠ []) :
    Preamble.length n ≤ (fs.flatMap fun (header, part) ↦ m.frame header part).length := by
  obtain ⟨f, fs, rfl⟩ := List.exists_cons_of_ne_nil hne
  have hframe := congrArg List.length (h.frame_eq_of_clean f.1 f.2)
  rw [List.length_append, Preamble.length_samples] at hframe
  rw [List.flatMap_cons, List.length_append]
  exact (Nat.le_add_right _ _).trans (hframe.ge.trans (Nat.le_add_right _ _))

theorem abs_of_mem_frames {fs : List (FrameHeader × List UInt8)} {s : Sample}
    (hs : s ∈ fs.flatMap fun (header, part) ↦ m.frame header part) : |s.toInt| ≤ A.toInt := by
  obtain ⟨f, -, hs⟩ := List.mem_flatMap.1 hs
  exact h.abs_of_mem_frame_of_clean hs

omit h in
theorem read_iff {w : ℕ} (hw : w ≤ m.interval) (first : Sample) :
    (0 < m.interval ∨ 0 ≤ d.drift w first) ↔ (0 < m.interval ∨ 0 ≤ d.drift 0 first) := by
  rcases Nat.eq_zero_or_pos m.interval with hzero | hpos
  · rw [hzero, Nat.le_zero] at hw
    rw [hw]
  · simp only [hpos, true_or]

/-- What the frames of a packet from some place on lead to, when nothing comes after them. -/
theorem carries_frames_of_fresh (parts : List (List UInt8)) (last : List UInt8) (count j : ℕ)
    (hσ : σ.phase = .search .start) (hcount : j + parts.length + 1 = count) (hmax : count ≤ 256)
    (hparts : ∀ part ∈ parts ++ [last], part ≠ [] ∧ part.length ≤ 127)
    (hj : j = 0 ∨ σ.lastIndex = some (UInt8.ofNat (j - 1)))
    (hread : ∀ i f, (parts.mapIdx fun i ↦ Modulator.frameAt count (j + i))[i]? = some f →
      0 < m.interval ∨ 0 ≤ d.drift (if i = 0 then w else 0) (tone m.amplitude f.1.firstBit)) :
    ∃ τ, d.Carries σ
      (List.replicate w 0 ++ ((parts.mapIdx fun i ↦ Modulator.frameAt count (j + i)) ++
        [Modulator.frameAt count (j + parts.length) last]).flatMap fun (header, part) ↦
          m.frame header part)
      (if 2 * Preamble.length n ≤ m.frameSamples last.length ∧
          (0 < m.interval ∨ 0 ≤ d.drift (if parts = [] then w else 0)
            (tone m.amplitude (Modulator.frameAt count (j + parts.length) last).1.firstBit))
        then [.packet ((if j = 0 then [] else σ.packet) ++ (parts ++ [last]).flatten)] else []) τ := by
  induction parts generalizing σ j w with
  | nil =>
    rw [List.length_nil] at hcount
    obtain ⟨hne, hle⟩ := hparts last (by simp)
    obtain ⟨τ, hτ⟩ := h.carries_last_frame (w := w) (Modulator.frameAt count j last).1
      hσ (toNat_ofSize hle _ _) hne hle (follows_ofNat hj)
    rw [frameEvents, if_pos (isLast_frameAt (by omega)), packetWith_frameAt (by omega)] at hτ
    exact ⟨τ, by simpa using hτ⟩
  | cons part parts ih =>
    rw [List.length_cons] at hcount
    obtain ⟨hne, hle⟩ := hparts part (by simp)
    have hplace : j + (part :: parts).length = j + 1 + parts.length := by
      rw [List.length_cons]
      omega
    have hlength := h.length_frameBits_of_clean (Modulator.frameAt count j part).1 part
    rw [mapIdx_cons_add (Modulator.frameAt count), List.cons_append, List.flatMap_cons, hplace]
    have hlong := h.length_le_of_frames ((parts.mapIdx fun i ↦
      Modulator.frameAt count (j + 1 + i)) ++ [Modulator.frameAt count (j + 1 + parts.length) last])
      (by simp)
    obtain ⟨w', hw', hrun⟩ := h.carries_frame_of_fresh (w := w)
      (Modulator.frameAt count j part).1
      (((parts.mapIdx fun i ↦ Modulator.frameAt count (j + 1 + i)) ++
        [Modulator.frameAt count (j + 1 + parts.length) last]).flatMap fun (header, part) ↦
          m.frame header part)
      hσ (toNat_ofSize hle _ _) hne hle
      (follows_ofNat hj) (fun s hs ↦ h.abs_of_mem_frames hs) (by omega)
      (hread 0 (Modulator.frameAt count j part) (by simp))
    rw [State.afterFrame, frameEvents, if_neg (isLast_frameAt_ne (by omega)),
      if_neg (isLast_frameAt_ne (by omega)), packetWith_frameAt (by omega)] at hrun
    -- the frames after the first follow as much silence as it has left
    obtain ⟨τ, hτ⟩ := ih (σ := ⟨.search .start, (if j = 0 then [] else σ.packet) ++ part,
      some (Modulator.frameAt count j part).1.index⟩) (j := j + 1) (w := w') rfl (by omega)
      (fun q hq ↦ hparts q (List.mem_cons_of_mem part hq)) (.inr rfl) (fun i f hf ↦ by
        have hnext := hread (i + 1) f
          (by rwa [mapIdx_cons_add (Modulator.frameAt count), List.getElem?_cons_succ])
        rw [read_iff (by split <;> omega)]
        exact hnext)
    have hall := hrun _ τ hτ
    have hsilence : (if parts = [] then w' else 0) ≤ m.interval := by split <;> omega
    simp only [read_iff hsilence] at hall
    rw [List.nil_append, if_neg (Nat.succ_ne_zero j), List.append_assoc] at hall
    exact ⟨τ, hall⟩

end CleanLink

namespace Config.Phy

def drift (p : Phy) (silence : ℕ) (header : FrameHeader) : Fixed :=
  p.demodulator.drift silence (tone p.carrier.peak header.firstBit)

theorem Valid.cleanLink_of_full {p : Phy} (h : p.Valid) (hpreamble : p.preamble.amplitude = level 1 1)
    (hcarrier : p.carrier.amplitude = level 1 1) (hramp : 3 ≤ p.preamble.ramp.toNat)
    (hthreshold : (Fixed.ofBinary p.preamble.threshold).units <
      peakUnits p.preamble.ramp.toNat p.preamble.peak) :
    CleanLink p.preamble.ramp.toNat p.preamble.peak { p.modulator with interval := 1 }
      p.demodulator := by
  have hpeak : p.preamble.peak = 2147483647 := by
    rw [Config.Preamble.peak, hpreamble, peakSample_level_one]
  have hcarrierPeak : p.carrier.peak = 2147483647 := by
    rw [Config.Carrier.peak, hcarrier, peakSample_level_one]
  -- the checks do not look at the silence after a frame
  have hcheck : ({ p with frameInterval := 1 } : Phy).check = .ok () :=
    (check_eq_ok_iff (p := p)).2 h
  have hclean := (check_eq_ok_iff.1 hcheck).clean hramp (h.ramp_le hpreamble)
    (by change _ ≤ p.carrier.peak.toInt; rw [hcarrierPeak]; decide)
    (by change p.carrier.peak.toInt ≤ p.preamble.peak.toInt; rw [hcarrierPeak, hpeak])
    (show (1 : UInt64) ≠ 0 by decide) hthreshold
  exact hclean.cleanLink

theorem modulator_frames {p : Phy} (hpos : 0 < p.bytesPerFrame.toNat) {bytes : List UInt8}
    (hne : bytes ≠ []) : ∃ parts last, chunks p.bytesPerFrame.toNat bytes = parts ++ [last] ∧
      p.modulator.frames bytes = (parts.mapIdx fun i ↦ Modulator.frameAt (parts.length + 1) i) ++
        [Modulator.frameAt (parts.length + 1) parts.length last] := by
  obtain ⟨parts, last, hparts⟩ : ∃ parts last, chunks p.bytesPerFrame.toNat bytes = parts ++ [last] :=
    ⟨_, _, (List.dropLast_append_getLast (chunks_ne_nil hpos hne)).symm⟩
  refine ⟨parts, last, hparts, ?_⟩
  have hframes : p.modulator.frames bytes = (chunks p.bytesPerFrame.toNat bytes).mapIdx fun i ↦
      Modulator.frameAt (chunks p.bytesPerFrame.toNat bytes).length i := rfl
  rw [hframes, hparts, List.mapIdx_append, List.length_append, List.length_singleton]
  simp

end Config.Phy

/-- A packet with nothing after it is delivered if as many samples as a preamble has follow the last
preamble, and unless its last frame is read one sample late and there is no silence after it. -/
theorem events_run_alone (p : Config.Phy) (hp : p.check = .ok ())
    (hpreamble : p.preamble.amplitude = level 1 1) (hcarrier : p.carrier.amplitude = level 1 1)
    (hramp : 3 ≤ p.preamble.ramp.toNat)
    (hthreshold : (Fixed.ofBinary p.preamble.threshold).units <
      peakUnits p.preamble.ramp.toNat p.preamble.peak)
    (bytes : List UInt8) (hne : bytes ≠ [])
    (hmax : bytes.length ≤ maxFrames * p.bytesPerFrame.toNat) (zeros : ℕ)
    (before : List (FrameHeader × List UInt8)) (last : FrameHeader × List UInt8)
    (hframes : p.modulator.frames bytes = before ++ [last])
    (hread : p.frameInterval ≠ 0 ∨ ∀ j f, before[j]? = some f →
      0 ≤ p.drift (if j = 0 then zeros else 0) f.1) :
    ∃ sound, p.modulator.modulate bytes = .ok sound ∧
      events (p.demodulator.run .initial (List.replicate zeros 0 ++ sound)).2 =
        if 2 * p.preambleSamples.length ≤ p.modulator.frameSamples last.2.length ∧
            (p.frameInterval ≠ 0 ∨ 0 ≤ p.drift (if before = [] then zeros else 0) last.1)
          then [.packet bytes] else [] := by
  have hvalid := Config.Phy.check_eq_ok_iff.1 hp
  have h := hvalid.cleanLink_of_full hpreamble hcarrier hramp hthreshold
  have hpos := hvalid.bytesPerFrame_pos
  obtain ⟨parts, part, hparts, hall⟩ := Config.Phy.modulator_frames hpos hne
  obtain ⟨hbefore, hlast⟩ := List.append_inj' (hframes.symm.trans hall) rfl
  obtain rfl : last = _ := List.singleton_inj.1 hlast
  have hgap : 0 < p.modulator.interval ↔ p.frameInterval ≠ 0 := Config.toNat_pos_iff
  have hcount : parts.length + 1 ≤ 256 := by
    have hle := length_chunks_le hpos hmax
    rwa [hparts, List.length_append] at hle
  have hflat : (parts ++ [part]).flatten = bytes := by rw [← hparts, flatten_chunks hpos]
  have hsizes : ∀ q ∈ parts ++ [part], q ≠ [] ∧ q.length ≤ 127 := by
    intro q hq
    rw [← hparts] at hq
    exact ⟨(mem_chunks hq).1, (mem_chunks hq).2.trans hvalid.bytesPerFrame_le⟩
  refine ⟨p.modulator.sound bytes, Modulator.modulate_eq hpos hmax, ?_⟩
  obtain ⟨τ, -, hevents⟩ := h.carries_frames_of_fresh (m := p.modulator) (σ := .initial) (w := zeros)
    parts part (parts.length + 1) 0 rfl (by omega) hcount hsizes
    (.inl rfl) (fun i f hf ↦ by
      simp only [Nat.zero_add] at hf
      rw [← hbefore] at hf
      exact hread.imp hgap.2 fun hdrift ↦ hdrift i f hf)
  have hlength : p.preambleSamples.length = Preamble.length p.preamble.ramp.toNat :=
    Preamble.length_samples _ _
  have hempty : before = [] ↔ parts = [] := by rw [hbefore, List.mapIdx_eq_nil_iff]
  simp only [Nat.zero_add, hgap, hflat, if_true, List.nil_append] at hevents
  simp only [Modulator.sound, hall, hlength, hempty, Modulator.frameAt_snd]
  exact hevents

def Config.Phy.dense : Config.Phy where
  bytesPerFrame := 4
  frameInterval := 0
  preamble := { ramp := 3 }

theorem events_run_alone_dense :
    ∃ sound, Config.Phy.dense.modulator.modulate [1, 2, 3, 4, 5] = .ok sound ∧
      events (Config.Phy.dense.demodulator.run .initial (List.replicate 0 0 ++ sound)).2 =
        [.packet [1, 2, 3, 4, 5]] := by
  obtain ⟨sound, hsound, hevents⟩ := events_run_alone Config.Phy.dense (by decide +kernel) rfl rfl
    (by decide) (by decide +kernel) [1, 2, 3, 4, 5] (by decide) (by decide) 0
    [(.ofSize 4 false 0, [1, 2, 3, 4])] (.ofSize 1 true 1, [5]) (by decide +kernel)
    (.inr fun j f hf ↦ by
      obtain ⟨rfl, rfl⟩ : j = 0 ∧ _ = f := by simpa [List.getElem?_singleton] using hf
      decide +kernel)
  refine ⟨sound, hsound, hevents.trans (if_pos ?_)⟩
  decide +kernel

def Config.Phy.seamless : Config.Phy := { frameInterval := 0 }

def Config.Phy.stubby : Config.Phy where
  frameInterval := 1
  preamble := { ramp := 8 }
  carrier := { size := 1, headerSize := 1 }

def Config.Phy.crowded : Config.Phy := { Config.Phy.dense with bytesPerFrame := 1 }

/-- A checked link at full amplitude that takes nothing from a packet with nothing after it. -/
def Config.Phy.Loses (p : Config.Phy) (bytes : List UInt8) : Prop :=
  p.check = .ok () ∧ p.preamble.amplitude = level 1 1 ∧ p.carrier.amplitude = level 1 1 ∧
    3 ≤ p.preamble.ramp.toNat ∧
    (Fixed.ofBinary p.preamble.threshold).units <
      peakUnits p.preamble.ramp.toNat p.preamble.peak ∧
    bytes ≠ [] ∧ p.modulator.modulate bytes = .ok (p.modulator.sound bytes) ∧
    events (p.demodulator.run .initial (p.modulator.sound bytes)).2 = []

/-- Three such links: the first reads its frame one sample late, the second waits for the confirmation
of its preamble, and the third reads a frame one sample late that another one follows. -/
theorem events_run_alone_nil :
    Config.Phy.seamless.Loses [1] ∧ Config.Phy.stubby.Loses [1] ∧ Config.Phy.crowded.Loses [0, 1] := by
  unfold Config.Phy.Loses
  refine ⟨?_, ?_, ?_⟩
  · decide +kernel
  · decide +kernel
  · decide +kernel

end SoundLink
