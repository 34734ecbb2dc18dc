import SoundLink.Proofs.Correlation
import SoundLink.Proofs.PeakEstimate
import SoundLink.Proofs.Slicing

namespace SoundLink

namespace MatchedFilter

theorem correlation_eq_sum (as bs : List Sample) :
    correlation as bs =
      (List.zipWith (fun a b : Sample ↦ a.toInt * b.toInt / 2 ^ 31) as bs).sum := by
  induction as generalizing bs with
  | nil => simp
  | cons a as ih => cases bs <;> simp [ih]

theorem units_power_ofPreamble {A : ℤ} {preamble window : List Sample}
    (hA : ∀ s ∈ preamble, |s.toInt| ≤ A) (hfits : preamble.length * A < 2 ^ 46)
    (hwindow : window.length = preamble.length) :
    ((ofPreamble preamble).power window.reverse).units =
      (List.zipWith (fun w s : Sample ↦ w.toInt * s.toInt / 2 ^ 31) window preamble).sum / 2 ^ 15 := by
  obtain _ | ⟨s, rest⟩ := preamble
  · rw [List.length_eq_zero_iff.1 hwindow]
    rfl
  · have hs : s ∈ s :: rest := List.mem_cons_self
    generalize s :: rest = preamble at *
    have hpos : 0 ≤ A := (abs_nonneg _).trans (hA s hs)
    have htaps : (ofPreamble preamble).taps = preamble.reverse := rfl
    rw [units_power _ _ (by simpa [htaps] using hA) hpos (by simpa [htaps] using hfits), htaps,
      correlation_eq_sum, ← List.reverse_zipWith hwindow, List.sum_reverse]

end MatchedFilter

def Fixed.IsPhase (t : Fixed) : Prop := 0 ≤ t.units ∧ t.units ≤ 65536

/-- The number at a place between two, both shares of it rounded down. -/
def blend (t a b : ℤ) : ℤ := a * (65536 - t) / 65536 + b * t / 65536

theorem blend_bounds {t : ℤ} (a b : ℤ) (ht : 0 ≤ t) (ht' : t ≤ 65536) :
    min a b - 1 ≤ blend t a b ∧ blend t a b ≤ max a b := by
  have hs : 0 ≤ 65536 - t := by omega
  have hlow : min a b * 65536 ≤ a * (65536 - t) + b * t := calc
    min a b * 65536 = min a b * (65536 - t) + min a b * t := by ring
    _ ≤ a * (65536 - t) + b * t := add_le_add
      (mul_le_mul_of_nonneg_right (min_le_left a b) hs)
      (mul_le_mul_of_nonneg_right (min_le_right a b) ht)
  have hhigh : a * (65536 - t) + b * t ≤ max a b * 65536 := calc
    a * (65536 - t) + b * t ≤ max a b * (65536 - t) + max a b * t := add_le_add
      (mul_le_mul_of_nonneg_right (le_max_left a b) hs)
      (mul_le_mul_of_nonneg_right (le_max_right a b) ht)
    _ = max a b * 65536 := by ring
  unfold blend
  omega

/-- What is read at a place between each of some samples and the one before it. -/
def readings (phase : Fixed) : Sample → List Sample → List ℤ
  | _, [] => []
  | a, b :: bs =>
    blend phase.units (Fixed.ofSample a).units (Fixed.ofSample b).units :: readings phase b bs

section

variable {phase : Fixed} (hphase : phase.IsPhase)
include hphase

theorem Fixed.units_lerp_ofSample (a b : Sample) :
    (lerp (.ofSample a) (.ofSample b) phase).units =
      blend phase.units (ofSample a).units (ofSample b).units :=
  units_lerp (abs_units_ofSample a) (abs_units_ofSample b) hphase.1 hphase.2

theorem abs_sum_readings_le (a : Sample) (bs : List Sample) :
    |(readings phase a bs).sum| ≤ bs.length * 65537 := by
  induction bs generalizing a with
  | nil => simp [readings]
  | cons b bs ih =>
    have hbounds := blend_bounds (Fixed.ofSample a).units (Fixed.ofSample b).units hphase.1 hphase.2
    have ha := abs_le.1 (Fixed.abs_units_ofSample a)
    have hb := abs_le.1 (Fixed.abs_units_ofSample b)
    have hsum := abs_le.1 (ih b)
    rw [readings, List.sum_cons, List.length_cons, abs_le]
    push_cast
    omega

namespace Slicer

/-- The sum over samples as a word: its low bits are those of the sum of what is read. -/
theorem units_integral_wrap (sum : Fixed) (a : Sample) (bs : List Sample) :
    (integral phase sum (.ofSample a) bs).units =
      (sum.units + (readings phase a bs).sum).bmod (2 ^ 32) := by
  induction bs generalizing sum a with
  | nil =>
    rw [integral, readings, List.sum_nil, add_zero, bmod_32 sum.le_units sum.units_lt]
  | cons b bs ih =>
    rw [integral, ih, Fixed.units_add_wrap, Fixed.units_lerp_ofSample hphase, Int.bmod_add_bmod,
      readings, List.sum_cons, add_assoc]

theorem units_integral (a : Sample) {bs : List Sample} (hle : bs.length ≤ 32767) :
    (integral phase 0 (.ofSample a) bs).units = (readings phase a bs).sum := by
  have hsum := abs_le.1 (abs_sum_readings_le hphase a bs)
  rw [units_integral_wrap hphase, Fixed.units_zero, zero_add, bmod_32] <;> omega

end Slicer

end

theorem Slicer.integral_concat (phase sum : Fixed) (a : Sample) (bs : List Sample) (s : Sample) :
    integral phase sum (.ofSample a) (bs ++ [s]) =
      integral phase sum (.ofSample a) bs + .lerp (.ofSample (bs.getLastD a)) (.ofSample s) phase := by
  induction bs generalizing sum a with
  | nil => rfl
  | cons b bs ih => rw [List.cons_append, integral, ih, integral, List.getLastD_cons]

/-- Samples of a bit that a slicer has summed, after a sample before them; they are the last ones that
were heard. -/
structure Slicer.Integrates (r : Slicer) (heard : List Sample) (a : Sample) (bit : List Sample) :
    Prop where
  suffix : a :: bit <:+ heard
  length_eq : bit.length = r.tick
  tick_lt : r.tick < 32767
  phase : r.phase.IsPhase
  last_eq : r.last = .ofSample (bit.getLastD a)
  sum_eq : r.sum = integral r.phase 0 (.ofSample a) bit

namespace Slicer.Integrates

variable {r : Slicer} {heard bit : List Sample} {a : Sample}

theorem start {phase : Fixed} (hphase : phase.IsPhase) (heard : List Sample) (a : Sample) :
    (Slicer.start (.ofSample a) phase).Integrates (heard ++ [a]) a [] where
  suffix := List.suffix_append _ _
  length_eq := rfl
  tick_lt := by simp [Slicer.start]
  phase := hphase
  last_eq := rfl
  sum_eq := rfl

theorem sum_add (h : r.Integrates heard a bit) (s : Sample) :
    r.sum + .lerp r.last (.ofSample s) r.phase = integral r.phase 0 (.ofSample a) (bit ++ [s]) := by
  rw [integral_concat, h.sum_eq, h.last_eq]

theorem push {size : ℕ} (h : r.Integrates heard a bit) (hsize : size ≤ 32767) (s : Sample) :
    ∃ a bit, (r.push size s).1.Integrates (heard ++ [s]) a bit := by
  by_cases hmore : r.tick + 1 < size
  · have hsum := h.sum_add s
    obtain ⟨before, rfl⟩ := h.suffix
    simp only [Slicer.push, if_pos hmore]
    exact ⟨a, bit ++ [s], ⟨before, by simp⟩, by simp [h.length_eq], hmore.trans_le hsize, h.phase,
      by simp, hsum⟩
  · -- the next bit starts after the sample that ends this one
    refine ⟨s, [], ?_⟩
    by_cases hword : r.bits + 1 < LineCode.wordBits
    · simp only [Slicer.push, if_neg hmore, if_pos hword]
      exact ⟨List.suffix_append _ _, rfl, by norm_num, h.phase, rfl, rfl⟩
    · simp only [Slicer.push, if_neg hmore, if_neg hword]
      exact start h.phase heard s

end Slicer.Integrates

theorem Window.size_push (span : ℕ) (w : Window) (s : Sample) :
    (w.push span s).size = min span (w.size + 1) := by
  rw [size_eq, samples_push, List.length_take, List.length_cons, ← size_eq]

theorem MatchedFilter.power_of_span_eq_zero {f : MatchedFilter} (h : f.span = 0)
    (newest : List Sample) : f.power newest = 0 := by
  rw [power, List.eq_nil_of_length_eq_zero (f.span_eq.symm.trans h)]
  cases newest <;> simp only [correlate] <;> rfl

def Detector.Keeps (f : MatchedFilter) (heard : List Sample) (det : Detector) : Prop :=
  ∀ c, det.candidate = some c → 0 < f.span ∧ f.span ≤ det.window.size ∧
    c.since.length = c.distance + 1 ∧ c.since.reverse <:+ heard

theorem Detector.keeps_start (f : MatchedFilter) (heard : List Sample) :
    start.Keeps f heard := by
  rintro c ⟨⟩

theorem Detector.Keeps.push {f : MatchedFilter} {heard : List Sample} {det : Detector}
    (h : det.Keeps f heard) (threshold : Fixed) (s : Sample) :
    (det.push f threshold s).1.Keeps f (heard ++ [s]) := by
  have hwindow := det.window.size_push f.span s
  unfold Detector.push
  dsimp only
  split_ifs with hfew hbest
  · intro c hc
    obtain ⟨-, hfull, -⟩ := h c hc
    omega
  · rintro c ⟨⟩
    refine ⟨Nat.pos_of_ne_zero fun hzero ↦ ?_, not_lt.1 hfew, rfl, List.suffix_append _ _⟩
    -- nothing is better than nothing without a preamble
    have hnone : det.candidate = none := Option.eq_none_iff_forall_ne_some.2 fun c hc ↦ by
      have hspan := (h c hc).1
      omega
    rw [f.power_of_span_eq_zero hzero, best, hnone] at hbest
    exact absurd hbest.1 (by decide)
  · intro c hc
    obtain ⟨c, hkept, rfl⟩ := Option.map_eq_some_iff.1 hc
    obtain ⟨hspan, -, hlen, before, rfl⟩ := h c hkept
    exact ⟨hspan, not_lt.1 hfew, by simp [Candidate.follow, hlen],
      before, by simp [Candidate.follow]⟩

namespace Demodulator

def Integrates (d : Demodulator) (heard : List Sample) (σ : State) : Prop :=
  match σ.phase with
  | .search det => det.Keeps d.filter heard
  | .extract r _ => ∃ a bit, r.Integrates heard a bit

/-- A search that starts, or a frame that starts at a sample and a place before the next. -/
inductive Begins : State → List Sample → Prop
  | search (p : List UInt8) (i : Option UInt8) : Begins ⟨.search .start, p, i⟩ []
  | frame (a : Sample) (phase : Fixed) (stage : Stage) (p : List UInt8) (i : Option UInt8)
      (hphase : phase.IsPhase) : Begins ⟨.extract (.start (.ofSample a) phase) stage, p, i⟩ [a]

variable {d : Demodulator} {σ : State} {heard : List Sample}

theorem Begins.integrates (h : Begins σ heard) : d.Integrates heard σ := by
  cases h with
  | search => exact Detector.keeps_start _ _
  | frame a phase stage p i hphase => exact ⟨a, [], .start hphase [] a⟩

theorem isPhase_of_nonneg {adjustment : Fixed} (h : 0 ≤ adjustment)
    (hle : |adjustment.units| ≤ 65536) : (1 - adjustment).IsPhase := by
  have hpos : 0 ≤ adjustment.units := (Fixed.le_iff _ _).1 h
  rw [abs_le] at hle
  rw [Fixed.IsPhase, Fixed.units_sub] <;> rw [Fixed.units_one] <;> omega

theorem isPhase_of_neg {adjustment : Fixed} (h : ¬0 ≤ adjustment)
    (hle : |adjustment.units| ≤ 65536) : (-adjustment).IsPhase := by
  have hneg : ¬0 ≤ adjustment.units := fun hpos ↦ h ((Fixed.le_iff 0 adjustment).2 hpos)
  rw [abs_le] at hle
  rw [Fixed.IsPhase, Fixed.units_neg (by omega)]
  omega

theorem integrates_lock {c : Candidate} (h : d.Integrates heard σ)
    (hc : σ.settled d.filter = some c) :
    ∃ before, heard = before ++ (lock σ c).2.2 ∧ d.Integrates before (lock σ c).1 := by
  obtain ⟨phase, p, i⟩ := σ
  cases phase with
  | extract r stage => cases hc
  | search det =>
    obtain ⟨hkept, hsettled⟩ := Option.filter_eq_some_iff.1 hc
    obtain ⟨hspan, -, hlen, before, rfl⟩ := h c hkept
    have hle := abs_units_estimateAdjustment_le c.left c.peak (c.right.getD c.left)
    rw [decide_eq_true_eq] at hsettled
    obtain ⟨a, b, xs, hsince⟩ : ∃ a b xs, c.since.reverse = a :: b :: xs := by
      rw [← List.length_reverse] at hlen
      match hs : c.since.reverse with
      | [] => rw [hs] at hlen; cases hlen
      | [a] => rw [hs, List.length_singleton] at hlen; omega
      | a :: b :: xs => exact ⟨a, b, xs, rfl⟩
    by_cases hadj : 0 ≤ estimateAdjustment c.left c.peak (c.right.getD c.left)
    · obtain ⟨hstate, hreplay⟩ := lock_of_nonneg (σ := ⟨.search det, p, i⟩) hsince hadj
      refine ⟨before ++ [a], by simp [hsince, hreplay], ?_⟩
      rw [hstate]
      exact ⟨a, [], .start (isPhase_of_nonneg hadj hle) before a⟩
    · obtain ⟨hstate, hreplay⟩ := lock_of_neg (σ := ⟨.search det, p, i⟩) hsince hadj
      refine ⟨before ++ [a] ++ [b], by simp [hsince, hreplay], ?_⟩
      rw [hstate]
      exact ⟨b, [], .start (isPhase_of_neg hadj hle) _ b⟩

variable (hsize : d.size ≤ 32767) (hheader : d.headerSize ≤ 32767)
include hsize hheader

theorem Integrates.observe (h : d.Integrates heard σ) (s : Sample) :
    d.Integrates (heard ++ [s]) (d.observe σ s).1 := by
  obtain ⟨phase, p, i⟩ := σ
  cases phase with
  | search det =>
    rw [observe_search]
    exact Detector.Keeps.push h d.threshold s
  | extract r stage =>
    obtain ⟨a, bit, hr⟩ := h
    have hle : d.sizeAt stage ≤ 32767 := by cases stage <;> assumption
    have hpush := hr.push hle s
    have hobserves := d.observes_extract r stage p i s
    generalize d.observe ⟨.extract r stage, p, i⟩ s = observed at hobserves ⊢
    cases hobserves with
    | sum hnone =>
      rw [hnone] at hpush
      exact hpush
    | noByte => exact Detector.keeps_start _ _
    | refused => exact Detector.keeps_start _ _
    | @byte _ _ _ τ _ hsome _ hreceive =>
      rw [hsome] at hpush
      have hphase := phase_receive hreceive
      obtain ⟨phase, q, j⟩ := τ
      obtain ⟨stage', rfl⟩ | rfl := hphase
      · exact hpush
      · exact Detector.keeps_start _ _

theorem Integrates.observeAll (h : d.Integrates heard σ) (xs : List Sample) :
    d.Integrates (heard ++ xs) (d.observeAll σ xs).1 := by
  induction xs generalizing σ heard with
  | nil => simpa using h
  | cons s xs ih =>
    rw [observeAll_cons]
    simpa using ih (h.observe hsize hheader s)

theorem Integrates.step (h : d.Integrates heard σ) (s : Sample) :
    d.Integrates (heard ++ [s]) (d.step σ s).1 := by
  have hobserve := h.observe hsize hheader s
  cases hc : (d.observe σ s).1.settled d.filter with
  | none => rwa [step_of_settled_eq_none hc]
  | some c =>
    obtain ⟨before, hheard, hlock⟩ := integrates_lock hobserve hc
    rw [step_of_settled_eq_some hc, hheard]
    exact hlock.observeAll hsize hheader _

theorem Integrates.run (h : d.Integrates heard σ) (xs : List Sample) :
    d.Integrates (heard ++ xs) (d.run σ xs).1 := by
  induction xs generalizing σ heard with
  | nil => simpa using h
  | cons s xs ih =>
    rw [run_cons]
    simpa using ih (h.step hsize hheader s)

omit hsize hheader

/-- No sum of a demodulator wraps. A window of any samples is correlated with a preamble of which fewer
than 2^46 full-scale units can add up as in the integers. Wherever in a stream a frame is read, at a place
between samples in which it may be, the sum of a bit with one more sample is the sum of what is read
between the samples of the bit; and what is read between two samples is no more than one unit below the
lower of them and not above the higher one. -/
theorem sums_exactly {A : ℤ} {preamble window : List Sample} (hA : ∀ s ∈ preamble, |s.toInt| ≤ A)
    (hfits : preamble.length * A < 2 ^ 46) (hwindow : window.length = preamble.length)
    (hsize : d.size ≤ 32767) (hheader : d.headerSize ≤ 32767) (hbegins : Begins σ heard)
    (xs : List Sample) :
    ((MatchedFilter.ofPreamble preamble).power window.reverse).units =
        (List.zipWith (fun w s : Sample ↦ w.toInt * s.toInt / 2 ^ 31) window preamble).sum / 2 ^ 15 ∧
      (∀ r stage, (d.run σ xs).1.phase = .extract r stage → r.phase.IsPhase ∧
        ∃ a bit, a :: bit <:+ heard ++ xs ∧ bit.length = r.tick ∧
          ∀ s, (r.sum + .lerp r.last (.ofSample s) r.phase).units =
            (readings r.phase a (bit ++ [s])).sum) ∧
      ∀ (phase : Fixed) (a b : Sample), phase.IsPhase →
        (Fixed.lerp (.ofSample a) (.ofSample b) phase).units =
            blend phase.units (Fixed.ofSample a).units (Fixed.ofSample b).units ∧
          min (Fixed.ofSample a).units (Fixed.ofSample b).units - 1 ≤
            (Fixed.lerp (.ofSample a) (.ofSample b) phase).units ∧
          (Fixed.lerp (.ofSample a) (.ofSample b) phase).units ≤
            max (Fixed.ofSample a).units (Fixed.ofSample b).units := by
  refine ⟨MatchedFilter.units_power_ofPreamble hA hfits hwindow, fun r stage hphase ↦ ?_,
    fun phase a b hphase ↦ ?_⟩
  · have hrun := hbegins.integrates.run hsize hheader xs
    rw [Integrates, hphase] at hrun
    obtain ⟨a, bit, hr⟩ := hrun
    have hlen := hr.length_eq
    have hlt := hr.tick_lt
    refine ⟨hr.phase, a, bit, hr.suffix, hlen, fun s ↦ ?_⟩
    rw [hr.sum_add, Slicer.units_integral hr.phase a (by simp; omega)]
  · rw [Fixed.units_lerp_ofSample hphase]
    exact ⟨rfl, blend_bounds _ _ hphase.1 hphase.2⟩

theorem sums_exactly_loudest :
    let low : Sample := -2147483648
    let high : Sample := 2147483647
    let d := ({} : Config.Phy).demodulator
    let σ : State := ⟨.extract (.start (.ofSample high) ⟨16384⟩) (.header none), [], none⟩
    ((MatchedFilter.ofPreamble [high, high]).power [low, low]).units = -131072 ∧
      ∃ r, (d.run σ [low, high]).1.phase = .extract r (.header none) ∧ d.headerSize = r.tick + 1 ∧
        (r.sum + .lerp r.last (.ofSample low) r.phase).units = 32765 := by
  intro low high d σ
  have hloud : ∀ s ∈ [high, high], |s.toInt| ≤ 2147483647 := by
    intro s hs
    obtain rfl : s = high := by simpa using hs
    decide
  have hfits : [high, high].length * 2147483647 < (2 : ℤ) ^ 46 := by norm_num
  have hwindow : [low, low].length = [high, high].length := rfl
  obtain ⟨hpower, hsum, -⟩ := sums_exactly (d := d) hloud hfits hwindow (by decide) (by decide)
    (.frame high ⟨16384⟩ (.header none) [] none ⟨by decide, by decide⟩) [low, high]
  obtain ⟨sum, hphase⟩ : ∃ sum, (d.run σ [low, high]).1.phase =
      .extract ⟨.ofSample high, ⟨16384⟩, sum, 2, 0, 0⟩ (.header none) :=
    ⟨_, by
      dsimp only [σ, Slicer.start]
      rw [run_cons, step_of_push (Slicer.push_of_lt low (by decide)), run_cons,
        step_of_push (Slicer.push_of_lt high (by decide)), run_nil]⟩
  obtain ⟨-, a, bit, hsuffix, hlen, hbit⟩ := hsum _ _ hphase
  obtain ⟨rfl, rfl⟩ := List.cons_eq_cons.1 (hsuffix.eq_of_length (by simpa using hlen))
  have hvalue : (readings ⟨16384⟩ high [low, high, low]).sum = 32765 := by decide
  exact ⟨hpower.trans (by decide), _, hphase, rfl, (hbit low).trans hvalue⟩

end Demodulator

end SoundLink
