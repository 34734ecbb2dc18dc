import SoundLink.Frame.Registers
import SoundLink.Proofs.PreambleShape

namespace SoundLink

theorem MatchedFilter.units_power_le {A m T : ℤ} {preamble window : List Sample}
    (hA : ∀ s ∈ preamble, |s.toInt| ≤ A) (hfits : preamble.length * A < 2 ^ 46) (hT : 0 ≤ T)
    (hfaint : preamble.length * m * A < (T + 1) * 2 ^ 46) (hm : ∀ s ∈ window, |s.toInt| ≤ m)
    (hwindow : window.length = preamble.length) :
    ((ofPreamble preamble).power window).units ≤ T := by
  have htaps : (ofPreamble preamble).taps = preamble.reverse := rfl
  obtain _ | ⟨s, rest⟩ := preamble
  · rw [units_power (A := 0) _ _ (by simp [htaps]) le_rfl (by simp [htaps]), htaps, List.reverse_nil,
      correlation_nil_right]
    exact hT
  · have hs : s ∈ s :: rest := List.mem_cons_self
    generalize s :: rest = preamble at *
    have hpos : 0 ≤ A := (abs_nonneg _).trans (hA s hs)
    have hbound := correlation_le window preamble.reverse hm (by simpa using hA) hpos
    have hfloor : 2 ^ 31 * (m * A / 2 ^ 31) ≤ m * A := Int.mul_ediv_self_le (by norm_num)
    have hlength : (0 : ℤ) ≤ preamble.length := Int.natCast_nonneg _
    rw [units_power _ _ (by simpa [htaps] using hA) hpos (by simpa [htaps] using hfits), htaps]
    have hsum : 2 ^ 31 * correlation window preamble.reverse < 2 ^ 31 * ((T + 1) * 2 ^ 15) := calc
      2 ^ 31 * correlation window preamble.reverse
          ≤ 2 ^ 31 * (preamble.length * (m * A / 2 ^ 31)) :=
            mul_le_mul_of_nonneg_left (hwindow ▸ hbound) (by norm_num)
      _ = preamble.length * (2 ^ 31 * (m * A / 2 ^ 31)) := by ring
      _ ≤ preamble.length * (m * A) := mul_le_mul_of_nonneg_left hfloor hlength
      _ = preamble.length * m * A := by ring
      _ < (T + 1) * 2 ^ 46 := hfaint
      _ = 2 ^ 31 * ((T + 1) * 2 ^ 15) := by ring
    have hcorrelation := lt_of_mul_lt_mul_left hsum (by norm_num)
    exact Int.lt_add_one_iff.1 (Int.ediv_lt_of_lt_mul (by norm_num) hcorrelation)

namespace Demodulator

variable {d : Demodulator} {m : ℤ} {r : Registers}

def Muted (d : Demodulator) (m : ℤ) : Prop :=
  ∀ window : List Sample, window.length = d.filter.span → (∀ s ∈ window, |s.toInt| ≤ m) →
    ¬d.threshold < d.filter.power window

structure Searches (m : ℤ) (r : Registers) : Prop where
  mode_eq : r.mode = .search
  candidate_eq : r.search.candidate = none
  window_le : ∀ s ∈ r.search.window, |s.toInt| ≤ m

theorem searches_new (m : ℤ) : Searches m .new := ⟨rfl, rfl, List.forall_mem_nil _⟩

theorem Searches.take (h : Searches m r) (hd : d.Muted m) {s : Sample} (hs : |s.toInt| ≤ m) :
    ∃ r', d.take r s = ⟨r', [], []⟩ ∧ Searches m r' := by
  obtain ⟨window, hwindow⟩ : ∃ window, (s :: r.search.window).take d.filter.span = window := ⟨_, rfl⟩
  have hle : ∀ x ∈ window, |x.toInt| ≤ m := by
    intro x hx
    rw [← hwindow] at hx
    rcases List.mem_cons.1 (List.mem_of_mem_take hx) with rfl | hx
    · exact hs
    · exact h.window_le x hx
  have hpush : (r.search.push d.filter d.threshold s).candidate = none ∧
      (r.search.push d.filter d.threshold s).window = window := by
    unfold SearchRegisters.push
    rw [hwindow]
    by_cases hfew : window.length < d.filter.span
    · rw [if_pos hfew]
      exact ⟨h.candidate_eq, rfl⟩
    · have hlength : window.length = d.filter.span := by
        have htake : window.length ≤ d.filter.span := hwindow ▸ List.length_take_le _ _
        omega
      rw [if_neg hfew, SearchRegisters.compare, if_neg fun hbest ↦ hd window hlength hle hbest.2]
      simp [h.candidate_eq]
  have hsettled : (r.search.push d.filter d.threshold s).settled d.filter = none := by
    rw [SearchRegisters.settled, hpush.1, ite_self]
  refine ⟨{ r with search := r.search.push d.filter d.threshold s }, ?_, h.mode_eq, hpush.1, ?_⟩
  · rw [Demodulator.take, if_pos h.mode_eq, detect, hsettled]
  · rw [hpush.2]
    exact hle

theorem Searches.process (h : Searches m r) (hd : d.Muted m) {block : List Sample}
    (hblock : ∀ s ∈ block, |s.toInt| ≤ m) : ∃ r', d.process r block = (r', []) ∧ Searches m r' := by
  induction block generalizing r with
  | nil => exact ⟨r, by rw [Demodulator.process], h⟩
  | cons s block ih =>
    obtain ⟨hs, hrest⟩ := List.forall_mem_cons.1 hblock
    obtain ⟨r₁, htake, h₁⟩ := h.take hd hs
    obtain ⟨r₂, hprocess, h₂⟩ := ih h₁ hrest
    refine ⟨r₂, ?_, h₂⟩
    rw [Demodulator.process, htake]
    dsimp only
    rw [List.nil_append, hprocess]
    rfl

theorem Searches.transcript (h : Searches m r) (hd : d.Muted m) {blocks : List (List Sample)}
    (hblocks : ∀ block ∈ blocks, ∀ s ∈ block, |s.toInt| ≤ m) :
    d.transcript r blocks = blocks.map fun _ ↦ ([], .search) := by
  induction blocks generalizing r with
  | nil => rfl
  | cons block blocks ih =>
    obtain ⟨hblock, hrest⟩ := List.forall_mem_cons.1 hblocks
    obtain ⟨r', hprocess, h'⟩ := h.process hd hblock
    rw [Demodulator.transcript, hprocess, List.map_cons]
    dsimp only
    rw [ih h' hrest, h'.mode_eq]

/-- A preamble of samples up to `A`, the correlations with which do not wrap, and samples up to `m`, so many
of which correlate within the threshold: a demodulator that hears nothing louder says nothing after any
block, and is still searching. -/
theorem silent_below {preamble : List Sample} {A : ℤ} (hfilter : d.filter = .ofPreamble preamble)
    (hA : ∀ s ∈ preamble, |s.toInt| ≤ A) (hfits : preamble.length * A < 2 ^ 46)
    (hthreshold : 0 ≤ d.threshold.units)
    (hfaint : preamble.length * m * A < (d.threshold.units + 1) * 2 ^ 46) {blocks : List (List Sample)}
    (hblocks : ∀ block ∈ blocks, ∀ s ∈ block, |s.toInt| ≤ m) :
    d.transcript .new blocks = blocks.map fun _ ↦ ([], .search) := by
  refine (searches_new m).transcript (fun window hlength hwindow ↦ ?_) hblocks
  rw [hfilter] at hlength ⊢
  rw [Fixed.lt_iff, not_lt]
  exact MatchedFilter.units_power_le hA hfits hthreshold hfaint hwindow
    (hlength.trans (List.length_reverse))

/-- The preamble itself at half its level, the loudest that correlates with it no further than the
threshold. -/
theorem silent_below_half :
    let p : Config.Phy := {}
    let half := Preamble.samples 4 1073742643
    (∀ s ∈ p.preambleSamples, |s.toInt| ≤ 2147483647) ∧
      p.demodulator.filter.power half.reverse = p.demodulator.threshold ∧
      p.demodulator.transcript .new [half, List.replicate 41 0, half ++ half] =
        [([], .search), ([], .search), ([], .search)] := by
  intro p half
  have hpeak : p.preamble.peak.toInt = 2147483647 := by decide +kernel
  have hA : ∀ s ∈ p.preambleSamples, |s.toInt| ≤ 2147483647 := fun s hs ↦
    ((Preamble.abs_of_mem_samples (by rw [hpeak]; norm_num) hs).trans hpeak).le
  have hhalf : ∀ s ∈ half, |s.toInt| ≤ 1073742643 := fun s hs ↦
    (Preamble.abs_of_mem_samples (by decide) hs).le
  have hblocks : ∀ block ∈ [half, List.replicate 41 0, half ++ half], ∀ s ∈ block,
      |s.toInt| ≤ 1073742643 := by
    simp only [List.forall_mem_cons, List.forall_mem_append]
    refine ⟨hhalf, fun s hs ↦ ?_, ⟨hhalf, hhalf⟩, List.forall_mem_nil _⟩
    rw [List.eq_of_mem_replicate hs]
    decide
  have hlength : p.preambleSamples.length = 40 := by decide +kernel
  have hthreshold : p.demodulator.threshold.units = 1310720 := by decide +kernel
  refine ⟨hA, by decide +kernel, ?_⟩
  exact silent_below (d := p.demodulator) rfl hA (by rw [hlength]; norm_num) (by rw [hthreshold]; norm_num)
    (by rw [hlength, hthreshold]; norm_num) hblocks

end Demodulator

end SoundLink
