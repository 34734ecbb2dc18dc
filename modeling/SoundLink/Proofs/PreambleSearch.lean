import SoundLink.Proofs.CleanLink
import SoundLink.Proofs.Slicing

namespace SoundLink

open Demodulator

namespace Demodulator

variable {d : Demodulator} {p : List UInt8} {i : Option UInt8} {es : List Event} {σ τ : State}

/-- A search that has heard nothing but silence. -/
def Quiet (d : Demodulator) (σ : State) : Prop :=
  ∃ det, σ.phase = .search det ∧ det.candidate = none ∧
    ∃ w, det.Recalls d.filter (List.replicate w 0)

theorem quiet_of_start (h : σ.phase = .search .start) : d.Quiet σ :=
  ⟨.start, h, rfl, 0, Detector.recalls_start _⟩

end Demodulator

namespace CleanLink

variable {n : ℕ} {A : Sample} {m : Modulator} {d : Demodulator} (h : CleanLink n A m d)
variable {p : List UInt8} {i : Option UInt8} {es : List Event} {σ τ : State} {det : Detector}
  {w : ℕ}
include h

theorem peakUnits_pos : 0 < peakUnits n A := by
  have hP := h.le_peakUnits
  have hA := h.le_peak
  nlinarith

theorem push_zero (hrec : det.Recalls d.filter (List.replicate w 0))
    (hnone : det.candidate = none) :
    (det.push d.filter d.threshold 0).1.candidate = none := by
  have hzero : d.filter.power (0 :: List.replicate w 0) = 0 := by
    rw [← List.replicate_succ]
    exact h.power_zeros (w + 1)
  obtain ⟨-, hc⟩ | ⟨-, hbest, -⟩ | ⟨-, -, hc⟩ := hrec.push_cases d.threshold 0
  · rw [hc, hnone]
  · rw [Detector.best, hnone, hzero, Fixed.lt_iff] at hbest
    exact absurd hbest (lt_irrefl _)
  · rw [hc, hnone]
    rfl

theorem quiet_zeros (k : ℕ) (hσ : d.Quiet σ) :
    ∃ τ, d.Quiet τ ∧ τ.packet = σ.packet ∧ τ.lastIndex = σ.lastIndex ∧
      d.Carries σ (List.replicate k 0) [] τ := by
  induction k generalizing σ with
  | zero => exact ⟨σ, hσ, rfl, rfl, .nil⟩
  | succ k ih =>
    obtain ⟨phase, p, i⟩ := σ
    obtain ⟨det, rfl, hnone, w, hrec⟩ := hσ
    have hpush := h.push_zero hrec hnone
    obtain ⟨τ, hτ, hp, hi, hc⟩ := ih (σ := ⟨.search (det.push d.filter d.threshold 0).1, p, i⟩)
      ⟨_, rfl, hpush, w + 1, hrec.push d.threshold 0⟩
    refine ⟨τ, hτ, hp, hi, carries_of_search ?_ hc⟩
    rw [Detector.settled, hpush]
    rfl

end CleanLink

/-- A detector that has heard silence and then the first `k` samples of a preamble, but not all. -/
def Hearing (n : ℕ) (A : Sample) (f : MatchedFilter) (w k : ℕ) (det : Detector) : Prop :=
  det.Recalls f (((Preamble.samples n A).take k).reverse ++ List.replicate w 0) ∧
    ∀ c, det.candidate = some c → c.peak.units < peakUnits n A ∧ c.distance < k

/-- A detector that has heard silence, a preamble and then some samples, given the last first. -/
def Following (n : ℕ) (A : Sample) (f : MatchedFilter) (w : ℕ) (after : List Sample)
    (det : Detector) : Prop :=
  det.Recalls f (after ++ (f.taps ++ List.replicate w 0)) ∧
    ∃ left peak, (left.units = 0 ∨ left.units = besidePeak n A / 2 ^ 15) ∧
      peak.units = peakUnits n A ∧
      det.candidate = some ⟨left, peak,
        after.getLast?.map fun s ↦ f.power (s :: (f.taps ++ List.replicate w 0)),
        after ++ [-A], after.length⟩

namespace CleanLink

variable {n : ℕ} {A : Sample} {m : Modulator} {d : Demodulator} (h : CleanLink n A m d)
variable {p : List UInt8} {i : Option UInt8} {σ : State} {det : Detector} {w : ℕ}
include h

theorem abs_of_mem_preamble {s : Sample} (hs : s ∈ Preamble.samples n A) : |s.toInt| ≤ A.toInt := by
  rw [← List.mem_reverse, ← h.taps_eq] at hs
  exact (h.abs_of_mem_taps hs).le

theorem hearing_push {k : ℕ} {s : Sample} (hk : k + 1 < Preamble.length n)
    (hs : (Preamble.samples n A)[k]? = some s) (hd : Hearing n A d.filter w k det) :
    Hearing n A d.filter w (k + 1) (det.push d.filter d.threshold s).1 := by
  obtain ⟨hrec, hcand⟩ := hd
  have hpast : s :: (((Preamble.samples n A).take k).reverse ++ List.replicate w 0) =
      ((Preamble.samples n A).take (k + 1)).reverse ++ List.replicate w 0 := by
    rw [List.take_add_one, hs]
    simp
  have hlt : (d.filter.power
      (s :: (((Preamble.samples n A).take k).reverse ++ List.replicate w 0))).units
      < peakUnits n A := by
    rw [hpast]
    refine h.power_lt w
      (fun x hx ↦ h.abs_of_mem_preamble (List.mem_of_mem_take (List.mem_reverse.1 hx))) ?_
    rw [List.length_reverse, List.length_take]
    omega
  refine ⟨hpast ▸ hrec.push d.threshold s, ?_⟩
  obtain ⟨-, hc⟩ | ⟨-, -, -, hc⟩ | ⟨-, -, hc⟩ := hrec.push_cases d.threshold s
  · rw [hc]
    intro c hc
    exact ⟨(hcand c hc).1, (hcand c hc).2.trans (Nat.lt_succ_self k)⟩
  · rw [hc]
    rintro c ⟨⟩
    exact ⟨hlt, Nat.succ_pos k⟩
  · rw [hc]
    intro c' hc'
    obtain ⟨c, hc, rfl⟩ := Option.map_eq_some_iff.1 hc'
    exact ⟨(hcand c hc).1, Nat.succ_lt_succ (hcand c hc).2⟩

theorem following_peak {k : ℕ} {s : Sample} (hk : k + 1 = Preamble.length n)
    (hs : (Preamble.samples n A)[k]? = some s) (hd : Hearing n A d.filter w k det) :
    Following n A d.filter w [] (det.push d.filter d.threshold s).1 := by
  obtain ⟨hrec, hcand⟩ := hd
  have hlen := Preamble.length_samples n A
  have hwhole : Preamble.samples n A = (Preamble.samples n A).take k ++ [s] := by
    conv_lhs => rw [← List.take_of_length_le (show (Preamble.samples n A).length ≤ k + 1 by omega)]
    rw [List.take_add_one, hs]
    rfl
  have htaps : d.filter.taps = s :: ((Preamble.samples n A).take k).reverse := by
    rw [h.taps_eq]
    conv_lhs => rw [hwhole]
    simp
  obtain ⟨rest, hcons⟩ := h.taps_eq_cons
  have hsA : s = -A := by
    rw [htaps] at hcons
    exact (List.cons.inj hcons).1
  have hpast : s :: (((Preamble.samples n A).take k).reverse ++ List.replicate w 0) =
      d.filter.taps ++ List.replicate w 0 := by rw [htaps, List.cons_append]
  have hpower := h.power_taps (List.replicate w 0)
  have hprev : det.previous.units = 0 ∨ det.previous.units = besidePeak n A / 2 ^ 15 := by
    rw [hrec.previous_eq]
    split
    · exact .inl rfl
    · right
      rw [← h.power_before w, htaps, List.tail_cons]
  refine ⟨hpast ▸ hrec.push d.threshold s, _, _, hprev, hpower, ?_⟩
  have hfull : d.filter.span ≤
      (((Preamble.samples n A).take k).reverse ++ List.replicate w 0).length + 1 := by
    rw [h.span_eq, List.length_append, List.length_reverse, List.length_take]
    omega
  obtain ⟨hshort, -⟩ | ⟨-, -, -, hc⟩ | ⟨-, hbest, -⟩ := hrec.push_cases d.threshold s
  · omega
  · rw [hc, hpast, hsA]
    rfl
  -- a candidate before the end of the preamble is weaker than the peak, and so is the threshold
  · refine absurd ⟨?_, ?_⟩ hbest
    · rw [hpast, Fixed.lt_iff, hpower, Detector.best]
      cases hc : det.candidate with
      | none => exact h.peakUnits_pos
      | some c => exact (hcand c hc).1
    · rw [hpast, Fixed.lt_iff, hpower]
      exact h.threshold_lt

theorem following_push {after : List Sample} {s : Sample}
    (hafter : ∀ x ∈ after, |x.toInt| ≤ A.toInt) (hs : |s.toInt| ≤ A.toInt)
    (hd : Following n A d.filter w after det) :
    Following n A d.filter w (s :: after) (det.push d.filter d.threshold s).1 := by
  obtain ⟨hrec, left, peak, hleft, hpeak, hc⟩ := hd
  have hle : (d.filter.power (s :: (after ++ (d.filter.taps ++ List.replicate w 0)))).units ≤
      peakUnits n A := by
    refine h.power_le fun x hx ↦ ?_
    obtain rfl | hx := List.mem_cons.1 hx
    · exact hs
    obtain hx | hx := List.mem_append.1 hx
    · exact hafter x hx
    obtain hx | hx := List.mem_append.1 hx
    · exact (h.abs_of_mem_taps hx).le
    · have hA := h.le_peak
      rw [List.eq_of_mem_replicate hx]
      simp only [Int32.toInt_zero, abs_zero]
      omega
  refine ⟨hrec.push d.threshold s, left, peak, hleft, hpeak, ?_⟩
  obtain ⟨hshort, -⟩ | ⟨-, hbest, -⟩ | ⟨-, -, hpush⟩ := hrec.push_cases d.threshold s
  · rw [List.length_append, List.length_append, ← d.filter.span_eq] at hshort
    omega
  · rw [Detector.best, hc, Fixed.lt_iff, Option.map_some, Option.getD_some, hpeak] at hbest
    omega
  · rw [hpush, hc, Option.map_some, Candidate.follow]
    cases after with
    | nil => rfl
    | cons x after => simp [List.getLast?_cons]

theorem carries_hearing {k : ℕ} (hk : k < Preamble.length n) (hd : Hearing n A d.filter w k det) :
    ∃ det', Following n A d.filter w [] det' ∧ ∀ xs es τ, d.Carries ⟨.search det', p, i⟩ xs es τ →
      d.Carries ⟨.search det, p, i⟩ ((Preamble.samples n A).drop k ++ xs) es τ := by
  obtain ⟨left, hleft⟩ : ∃ left, k + left + 1 = Preamble.length n :=
    ⟨Preamble.length n - k - 1, by omega⟩
  have hlen := Preamble.length_samples n A
  induction left generalizing k det with
  | zero =>
    have hs : (Preamble.samples n A)[k]? = some ((Preamble.samples n A)[k]) :=
      List.getElem?_eq_getElem (by omega)
    have hpeak := h.following_peak (by omega) hs hd
    refine ⟨_, hpeak, fun xs es τ hxs ↦ ?_⟩
    obtain ⟨-, left, peak, -, -, hc⟩ := hpeak
    rw [List.drop_eq_getElem_cons (by omega), List.drop_of_length_le (by omega)]
    refine carries_of_search (Detector.settled_eq_none fun c hc' ↦ ?_) hxs
    rw [hc] at hc'
    cases hc'
    rw [h.span_eq]
    exact (Nat.zero_le k).trans_lt hk
  | succ left ih =>
    have hs : (Preamble.samples n A)[k]? = some ((Preamble.samples n A)[k]) :=
      List.getElem?_eq_getElem (by omega)
    have hnext := h.hearing_push (by omega) hs hd
    obtain ⟨det', hdet', hrun⟩ := ih (by omega) hnext (by omega)
    refine ⟨det', hdet', fun xs es τ hxs ↦ ?_⟩
    rw [List.drop_eq_getElem_cons (by omega)]
    refine carries_of_search (Detector.settled_eq_none fun c hc ↦ ?_) (hrun xs es τ hxs)
    have := (hnext.2 c hc).2
    rw [h.span_eq]
    omega

theorem carries_following {after ys : List Sample} (hd : Following n A d.filter w after det)
    (hafter : ∀ x ∈ after, |x.toInt| ≤ A.toInt) (hys : ∀ x ∈ ys, |x.toInt| ≤ A.toInt)
    (hlen : after.length + ys.length < Preamble.length n) :
    ∃ det', Following n A d.filter w (ys.reverse ++ after) det' ∧ ∀ xs es τ,
      d.Carries ⟨.search det', p, i⟩ xs es τ → d.Carries ⟨.search det, p, i⟩ (ys ++ xs) es τ := by
  induction ys generalizing after det with
  | nil => exact ⟨det, hd, fun _ _ _ hxs ↦ hxs⟩
  | cons s ys ih =>
    rw [List.length_cons] at hlen
    have hs := hys s List.mem_cons_self
    have hnext := h.following_push hafter hs hd
    obtain ⟨det', hdet', hrun⟩ := ih hnext (List.forall_mem_cons.2 ⟨hs, hafter⟩)
      (fun x hx ↦ hys x (List.mem_cons_of_mem _ hx)) (by rw [List.length_cons]; omega)
    refine ⟨det', by simpa using hdet', fun xs es τ hxs ↦ ?_⟩
    refine carries_of_search (Detector.settled_eq_none fun c hc ↦ ?_) (hrun xs es τ hxs)
    obtain ⟨-, left, peak, -, -, hc'⟩ := hnext
    rw [hc] at hc'
    cases hc'
    rw [h.span_eq]
    show after.length + 1 < _
    omega

/-- The last sample that a candidate waits for: the frame is read from the end of the preamble on
or, at an offset to the right, from the first sample after it. -/
theorem carries_lock {bit : Bool} {first s : Sample} {rest : List Sample}
    (hd : Following n A d.filter w (first :: rest).reverse det)
    (hfirst : first = tone m.amplitude bit) (hrest : ∀ x ∈ first :: rest, |x.toInt| ≤ A.toInt)
    (hs : |s.toInt| ≤ A.toInt) (hlen : rest.length + 2 = Preamble.length n) :
    ∃ adj : Fixed,
      0 ≤ adj.units ∧ IsSmallOffset m.amplitude.toInt A.toInt adj.units ∧
        (∀ xs es τ, d.Carries ⟨.extract (.start (.ofSample (-A)) (1 - adj)) (.header none), p, i⟩
          (first :: rest ++ s :: xs) es τ → d.Carries ⟨.search det, p, i⟩ (s :: xs) es τ) ∨
      adj.units < 0 ∧ -32608 ≤ adj.units ∧
        (∀ xs es τ, d.Carries ⟨.extract (.start (.ofSample first) (-adj)) (.header none), p, i⟩
          (rest ++ s :: xs) es τ → d.Carries ⟨.search det, p, i⟩ (s :: xs) es τ) := by
  obtain ⟨-, left, peak, hleft, hpeak, hc⟩ :=
    h.following_push (fun x hx ↦ hrest x (List.mem_reverse.1 hx)) hs hd
  have hlast : (s :: (first :: rest).reverse).getLast? = some first := by simp [List.getLast?_cons]
  have hdist : (s :: (first :: rest).reverse).length = d.filter.span := by
    rw [h.span_eq, ← hlen]
    simp
  rw [hlast, Option.map_some, hdist] at hc
  generalize hcand : Candidate.mk left peak
    (some (d.filter.power (first :: (d.filter.taps ++ List.replicate w 0)))) _
    d.filter.span = c at hc
  have hset : State.settled d.filter (d.observe ⟨.search det, p, i⟩ s).1 = some c := by
    rw [observe_search, State.settled]
    refine Option.filter_eq_some_iff.2 ⟨hc, ?_⟩
    rw [← hcand]
    simp
  have hsince : c.since.reverse = -A :: (first :: rest ++ [s]) := by
    rw [← hcand]
    simp
  have hshort : c.since.length ≤ d.filter.span + 1 := by
    rw [← List.length_reverse, hsince, h.span_eq]
    simp
    omega
  have hobs : (d.observe ⟨.search det, p, i⟩ s).1 =
      ⟨.search (det.push d.filter d.threshold s).1, p, i⟩ := by
    rw [observe_search]
  have hoff : IsSmallOffset m.amplitude.toInt A.toInt
        (estimateAdjustment c.left c.peak (c.right.getD c.left)).units ∨
      (estimateAdjustment c.left c.peak (c.right.getD c.left)).units < 0 ∧
        -32608 ≤ (estimateAdjustment c.left c.peak (c.right.getD c.left)).units := by
    rw [← hcand]
    exact h.offset bit hpeak hleft (by rw [Option.getD_some, h.power_after, hfirst])
  refine ⟨estimateAdjustment c.left c.peak (c.right.getD c.left), ?_⟩
  -- the sign of the offset decides which sample is read first
  by_cases hadj : 0 ≤ estimateAdjustment c.left c.peak (c.right.getD c.left)
  · obtain ⟨hstate, hreplay⟩ :=
      lock_of_nonneg (σ := (d.observe ⟨.search det, p, i⟩ s).1) hsince hadj
    have hpos := (Fixed.le_iff _ _).1 hadj
    refine .inl ⟨hpos, hoff.resolve_right fun hneg ↦ absurd hpos (not_le.2 hneg.1),
      fun xs es τ hxs ↦ ?_⟩
    refine carries_of_lock hset hshort ?_
    rw [hstate, hreplay, hobs]
    simpa using hxs
  · obtain ⟨hstate, hreplay⟩ := lock_of_neg (σ := (d.observe ⟨.search det, p, i⟩ s).1) hsince hadj
    have hneg := not_le.1 (mt (Fixed.le_iff _ _).2 hadj)
    refine .inr ⟨hneg, (hoff.resolve_left fun hsmall ↦ absurd hsmall.1 (not_le.2 hneg)).2,
      fun xs es τ hxs ↦ ?_⟩
    refine carries_of_lock hset hshort ?_
    rw [hstate, hreplay, hobs]
    simpa using hxs

theorem abs_tone_le (bit : Bool) : |(tone m.amplitude bit).toInt| ≤ m.amplitude.toInt := by
  have ha := h.le_amplitude
  exact (abs_tone (by omega) bit).le

theorem carries_preamble (bit : Bool) {ys : List Sample} (hσ : d.Quiet σ)
    (hys : ∀ x ∈ ys, |x.toInt| ≤ A.toInt) (hlen : ys.length + 1 = Preamble.length n) :
    ∃ adj : Fixed,
      0 ≤ adj.units ∧ IsSmallOffset m.amplitude.toInt A.toInt adj.units ∧
        (∀ xs es τ, d.Carries ⟨.extract (.start (.ofSample (-A)) (1 - adj)) (.header none),
          σ.packet, σ.lastIndex⟩
          (tone m.amplitude bit :: ys ++ xs) es τ →
          d.Carries σ (m.preamble ++ (tone m.amplitude bit :: ys ++ xs)) es τ) ∨
      adj.units < 0 ∧ -32608 ≤ adj.units ∧
        (∀ xs es τ, d.Carries ⟨.extract (.start (.ofSample (tone m.amplitude bit)) (-adj))
          (.header none),
          σ.packet, σ.lastIndex⟩ (ys ++ xs) es τ →
          d.Carries σ (m.preamble ++ (tone m.amplitude bit :: ys ++ xs)) es τ) := by
  obtain ⟨phase, p, i⟩ := σ
  obtain ⟨det, rfl, hnone, w, hrec⟩ := hσ
  have htone : |(tone m.amplitude bit).toInt| ≤ A.toInt := (h.abs_tone_le bit).trans h.amplitude_le
  have hpos := h.le_length
  obtain ⟨rest, s, rfl⟩ : ∃ rest s, ys = rest ++ [s] := by
    obtain rfl | h := List.eq_nil_or_concat ys
    · simp at hlen
      omega
    · simpa using h
  rw [List.length_append, List.length_singleton] at hlen
  -- up to the peak, then up to the sample that settles the candidate
  obtain ⟨det₁, hdet₁, hrun₁⟩ := h.carries_hearing (p := p) (i := i)
    (show 0 < Preamble.length n by omega)
    (show Hearing n A d.filter w 0 det from ⟨by simpa using hrec, by simp [hnone]⟩)
  have hrest : ∀ x ∈ tone m.amplitude bit :: rest, |x.toInt| ≤ A.toInt :=
    List.forall_mem_cons.2 ⟨htone, fun x hx ↦ hys x (List.mem_append_left _ hx)⟩
  obtain ⟨det₂, hdet₂, hrun₂⟩ := h.carries_following (p := p) (i := i) hdet₁ (by simp) hrest
    (by rw [List.length_nil, List.length_cons]; omega)
  rw [List.append_nil] at hdet₂
  have hwhole : ∀ xs es τ, d.Carries ⟨.search det₂, p, i⟩ (s :: xs) es τ →
      d.Carries ⟨.search det, p, i⟩
        (m.preamble ++ (tone m.amplitude bit :: (rest ++ [s]) ++ xs)) es τ := by
    intro xs es τ hxs
    have := hrun₁ _ es τ (hrun₂ (s :: xs) es τ hxs)
    rw [h.preamble_eq]
    simpa using this
  obtain ⟨adj, ⟨hpos, hsmall, hrun⟩ | ⟨hneg, hlate, hrun⟩⟩ :=
    h.carries_lock (p := p) (i := i) hdet₂ rfl hrest (hys s (by simp)) (by omega)
  · exact ⟨adj, .inl ⟨hpos, hsmall, fun xs es τ hxs ↦
      hwhole xs es τ (hrun xs es τ (by simpa using hxs))⟩⟩
  · exact ⟨adj, .inr ⟨hneg, hlate, fun xs es τ hxs ↦
      hwhole xs es τ (hrun xs es τ (by simpa using hxs))⟩⟩

theorem faithful_of_small {phase : Fixed} {prev : Sample} (bits : List Bool)
    (hprev : |prev.toInt| ≤ A.toInt)
    (hphase : IsSmallOffset m.amplitude.toInt A.toInt (65536 - phase.units)) :
    Faithful phase (.ofSample prev) (bits.map (tone m.amplitude)) bits := by
  induction bits generalizing prev with
  | nil => trivial
  | cons b bs ih =>
    exact ⟨lerp_reads_of_small b h.le_amplitude hprev hphase,
      ih ((h.abs_tone_le b).trans h.amplitude_le)⟩

theorem faithful_of_late {phase : Fixed} (b : Bool) (bs : List Bool) (hphase : 0 ≤ phase.units)
    (hphase' : phase.units ≤ 32608) :
    Faithful phase (.ofSample (tone m.amplitude b)) (bs.map (tone m.amplitude) ++ [0])
      (b :: bs) := by
  have ha := h.le_amplitude
  induction bs generalizing b with
  | nil => exact ⟨lerp_reads_of_late b ha (by simp; omega) hphase hphase', trivial⟩
  | cons c bs ih => exact ⟨lerp_reads_of_late b ha (h.abs_tone_le c) hphase hphase', ih c⟩

theorem carries_bits_of_quiet {bits : List Bool} {rest : List Sample} {k : ℕ} {es : List Event}
    {υ : State} (hσ : d.Quiet σ) (hrest : ∀ s ∈ rest, |s.toInt| ≤ A.toInt) (hbits : bits ≠ [])
    (hk : 0 < k) (hlen : Preamble.length n ≤ bits.length + k + rest.length)
    (hdel : ∀ phase, d.Delivers phase (.header none) σ.packet σ.lastIndex bits es υ)
    (hυ : υ.phase = .search .start) :
    ∃ υ', d.Quiet υ' ∧ υ'.packet = υ.packet ∧ υ'.lastIndex = υ.lastIndex ∧
      ∀ fs τ, d.Carries υ' rest fs τ →
      d.Carries σ (m.preamble ++ (bits.map (tone m.amplitude) ++ List.replicate k 0 ++ rest))
        (es ++ fs) τ := by
  obtain ⟨b, bs, rfl⟩ := List.exists_cons_of_ne_nil hbits
  obtain ⟨j, rfl⟩ := Nat.exists_eq_succ_of_ne_zero hk.ne'
  have hA := h.le_peak
  have hpos := h.le_length
  have hAneg := Preamble.toInt_neg_of_pos (show 0 < A.toInt by omega)
  -- the samples that the search takes after the first of the frame
  obtain ⟨ys, xs, hys, hsplit⟩ : ∃ ys xs, ys.length + 1 = Preamble.length n ∧
      bs.map (tone m.amplitude) ++ List.replicate (j + 1) 0 ++ rest = ys ++ xs := by
    refine ⟨_, _, ?_, (List.take_append_drop (Preamble.length n - 1) _).symm⟩
    rw [List.length_take]
    simp at hlen ⊢
    omega
  have hmem : ∀ x ∈ ys, |x.toInt| ≤ A.toInt := by
    intro x hx
    have hx' : x ∈ bs.map (tone m.amplitude) ++ List.replicate (j + 1) 0 ++ rest :=
      hsplit ▸ List.mem_append_left xs hx
    obtain hx' | hx' := List.mem_append.1 hx'
    · obtain hx' | hx' := List.mem_append.1 hx'
      · obtain ⟨c, -, rfl⟩ := List.mem_map.1 hx'
        exact (h.abs_tone_le c).trans h.amplitude_le
      · rw [List.eq_of_mem_replicate hx']
        simp
        omega
    · exact hrest x hx'
  have hstream : (b :: bs).map (tone m.amplitude) ++ List.replicate (j + 1) 0 ++ rest =
      tone m.amplitude b :: ys ++ xs := by
    rw [List.map_cons, List.cons_append, List.cons_append, hsplit, List.cons_append]
  rw [Nat.succ_eq_add_one, hstream]
  obtain ⟨adj, ⟨hadj, hsmall, hrun⟩ | ⟨hadj, hlate, hrun⟩⟩ := h.carries_preamble b hσ hmem hys
  · obtain ⟨υ', hυ', hp, hi, hzeros⟩ := h.quiet_zeros (j + 1) (quiet_of_start hυ)
    have hle := hsmall.2.1
    have hphase : (1 - adj).units = 65536 - adj.units :=
      Fixed.units_sub (by simp; omega) (by simp; omega)
    have hstart : |(-A).toInt| ≤ A.toInt := by
      rw [hAneg, abs_neg, abs_le]
      omega
    have hoff : IsSmallOffset m.amplitude.toInt A.toInt (65536 - (1 - adj).units) := by
      rwa [hphase, sub_sub_cancel]
    have hread := hdel _ _ _ (h.faithful_of_small (b :: bs) hstart hoff)
    refine ⟨υ', hυ', hp, hi, fun fs τ hfs ↦ hrun xs _ τ ?_⟩
    rw [← hstream]
    simpa using (hread.append hzeros).append hfs
  · obtain ⟨υ', hυ', hp, hi, hzeros⟩ := h.quiet_zeros j (quiet_of_start hυ)
    have hphase : (-adj).units = -adj.units := Fixed.units_neg (by omega)
    have hread := hdel _ _ _ (h.faithful_of_late b bs (show 0 ≤ (-adj).units by omega) (by omega))
    refine ⟨υ', hυ', hp, hi, fun fs τ hfs ↦ hrun xs _ τ ?_⟩
    rw [← hsplit]
    simpa [List.replicate_succ] using (hread.append hzeros).append hfs

end CleanLink

end SoundLink
