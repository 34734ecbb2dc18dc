import SoundLink.Proofs.FixedPoint
import SoundLink.Proofs.Streaming

namespace SoundLink

def segment (x : ℕ → Sample) (i j : ℕ) : List Sample := (List.range' i (j - i)).map x

namespace Demodulator

variable (d : Demodulator) (x : ℕ → Sample)

def powerAt (j : ℕ) : Fixed := d.filter.power ((List.range d.filter.span).map fun k ↦ x (j - k))

/-- The strongest match of a search that began at `i`, as far as the samples before `j` tell; of
equal ones it is the first. -/
structure IsBest (i p j : ℕ) : Prop where
  full : i + d.filter.span ≤ p + 1
  before : p < j
  above : d.threshold < d.powerAt x p
  pos : 0 < d.powerAt x p
  earlier : ∀ q < p, i + d.filter.span ≤ q + 1 → d.threshold < d.powerAt x q →
    d.powerAt x q < d.powerAt x p
  later : ∀ q, p < q → q < j → d.threshold < d.powerAt x q → ¬d.powerAt x p < d.powerAt x q

/-- The end of the preamble: the first match that as many samples as a preamble has do not
exceed. -/
def IsLock (i p : ℕ) : Prop := IsLeast {p | d.IsBest x i p (p + d.filter.span + 1)} p

/-- How far the preamble ends before its last sample. There is no match before the window is
full. -/
def offsetAt (i p : ℕ) : Fixed :=
  estimateAdjustment (if i + d.filter.span ≤ p then d.powerAt x (p - 1) else 0) (d.powerAt x p)
    (d.powerAt x (p + 1))

/-- A frame that begins after a preamble, and the place of the first sample that is read of it. -/
def entry (i p : ℕ) (σ : State) : State × ℕ :=
  if 0 ≤ d.offsetAt x i p then
    (⟨.extract (.start (.ofSample (x p)) (1 - d.offsetAt x i p)) (.header none), σ.packet,
      σ.lastIndex⟩, p + 1)
  else
    (⟨.extract (.start (.ofSample (x (p + 1))) (-d.offsetAt x i p)) (.header none), σ.packet,
      σ.lastIndex⟩, p + 2)

/-- A frame is read from some place on and ends at another, well or not. -/
inductive ReadsFrame : State → ℕ → ℕ → List Event → State → Prop
  | ends {σ : State} {j : ℕ} : (d.observe σ (x j)).1.phase = .search .start →
      ReadsFrame σ j j (events (d.observe σ (x j)).2) (d.observe σ (x j)).1
  | goes {σ : State} {j e : ℕ} {es : List Event} {τ : State} {r : Slicer} {stage : Stage} :
      (d.observe σ (x j)).1.phase = .extract r stage →
      ReadsFrame (d.observe σ (x j)).1 (j + 1) e es τ →
      ReadsFrame σ j e (events (d.observe σ (x j)).2 ++ es) τ

structure Episode where
  peak : ℕ
  stop : ℕ
  events : List Event

/-- The place of the last sample that an episode depends on. -/
def Episode.settled (span : ℕ) (ep : Episode) : ℕ := max (ep.peak + span) ep.stop

structure IsEpisode (i : ℕ) (σ : State) (ep : Episode) (τ : State) : Prop where
  lock : d.IsLock x i ep.peak
  frame : d.ReadsFrame x (d.entry x i ep.peak σ).1 (d.entry x i ep.peak σ).2 ep.stop ep.events τ

inductive Reference : ℕ → State → List Episode → Prop
  | nil {i : ℕ} {σ : State} : Reference i σ []
  | cons {i : ℕ} {σ τ : State} {ep : Episode} {eps : List Episode} : d.IsEpisode x i σ ep τ →
      Reference (ep.stop + 1) τ eps → Reference i σ (ep :: eps)

variable {d x} {i j k p q n : ℕ} {σ τ : State} {es : List Event}

theorem segment_self (x : ℕ → Sample) (i : ℕ) : segment x i i = [] := by simp [segment]

theorem segment_cons (x : ℕ → Sample) (h : i < j) :
    segment x i j = x i :: segment x (i + 1) j := by
  obtain ⟨k, rfl⟩ := Nat.exists_eq_add_of_lt h
  have hk : i + k + 1 - i = k + 1 := by omega
  have hk' : i + k + 1 - (i + 1) = k := by omega
  rw [segment, segment, hk, hk', List.range'_succ, List.map_cons]

theorem segment_append (x : ℕ → Sample) (h : i ≤ j) (h' : j ≤ k) :
    segment x i j ++ segment x j k = segment x i k := by
  have hj : i + (j - i) = j := by omega
  have hk : j - i + (k - j) = k - i := by omega
  rw [segment, segment, segment, ← List.map_append, ← hk, ← List.range'_append_1, hj]

theorem segment_snoc (x : ℕ → Sample) (h : i ≤ j) :
    segment x i (j + 1) = segment x i j ++ [x j] := by
  rw [← segment_append x h (Nat.le_succ j), segment_cons x (Nat.lt_succ_self j), segment_self]

theorem length_segment (x : ℕ → Sample) (i j : ℕ) : (segment x i j).length = j - i := by
  simp [segment]

theorem power_segment (h : i + d.filter.span ≤ j + 1) :
    d.filter.power (segment x i (j + 1)).reverse = d.powerAt x j := by
  have htake : (segment x i (j + 1)).reverse.take d.filter.span =
      (List.range d.filter.span).map fun k ↦ x (j - k) := by
    refine List.ext_getElem ?_ fun k hk hk' ↦ ?_
    · simp [length_segment]
      omega
    · rw [List.length_map, List.length_range] at hk'
      simp only [segment, List.getElem_take, List.getElem_reverse, List.getElem_map,
        List.getElem_range', List.getElem_range, List.length_map, List.length_range']
      congr 1
      omega
  rw [← d.filter.power_take, htake, powerAt]

theorem span_pos_of_powerAt (h : 0 < d.powerAt x j) : 0 < d.filter.span := by
  by_contra hzero
  have hspan : d.filter.span = 0 := by omega
  rw [powerAt, hspan, List.range_zero, List.map_nil, MatchedFilter.power,
    MatchedFilter.correlate] at h
  · exact absurd h (by decide)
  · simp

theorem IsBest.eq (h : d.IsBest x i p j) (h' : d.IsBest x i q j) : p = q := by
  obtain hlt | heq | hlt := lt_trichotomy p q
  · exact absurd (h'.earlier p hlt h.full h.above) (h.later q hlt h'.before h'.above)
  · exact heq
  · exact absurd (h.earlier q hlt h'.full h'.above) (h'.later p hlt h.before h.above)

def candidateAt (d : Demodulator) (x : ℕ → Sample) (i p j : ℕ) : Candidate where
  left := if i + d.filter.span ≤ p then d.powerAt x (p - 1) else 0
  peak := d.powerAt x p
  right := if p + 1 < j then some (d.powerAt x (p + 1)) else none
  since := (segment x p j).reverse
  distance := j - 1 - p

/-- What a search that began at `i` holds before it takes the sample at `j`. -/
def Tracks (d : Demodulator) (x : ℕ → Sample) (i j : ℕ) : Option Candidate → Prop
  | none => ∀ q < j, i + d.filter.span ≤ q + 1 → d.threshold < d.powerAt x q → ¬0 < d.powerAt x q
  | some c => ∃ p, d.IsBest x i p j ∧ c = d.candidateAt x i p j

theorem IsBest.mono (h : d.IsBest x i p j) (hk : p < k) (hkj : k ≤ j) : d.IsBest x i p k :=
  { h with
    before := hk
    later := fun q hpq hq ↦ h.later q hpq (hq.trans_le hkj) }

theorem IsBest.succ (h : d.IsBest x i p j)
    (hj : ¬(d.powerAt x p < d.powerAt x j ∧ d.threshold < d.powerAt x j)) :
    d.IsBest x i p (j + 1) := by
  refine { h with before := Nat.lt_succ_of_lt h.before, later := ?_ }
  intro q hpq hq habove hlt
  obtain hq | rfl := Nat.lt_succ_iff_lt_or_eq.1 hq
  · exact h.later q hpq hq habove hlt
  · exact hj ⟨hlt, habove⟩

theorem candidateAt_follow (h : p < j) :
    (d.candidateAt x i p j).follow (d.powerAt x j) (x j) = d.candidateAt x i p (j + 1) := by
  have hright : some ((if p + 1 < j then some (d.powerAt x (p + 1)) else none).getD
      (d.powerAt x j)) = if p + 1 < j + 1 then some (d.powerAt x (p + 1)) else none := by
    rw [if_pos (Nat.succ_lt_succ h)]
    split_ifs with hlt
    · rfl
    · obtain rfl : p + 1 = j := by omega
      rfl
  have hsince : x j :: (segment x p j).reverse = (segment x p (j + 1)).reverse := by
    rw [segment_snoc x h.le, List.reverse_append]
    rfl
  have hdistance : j - 1 - p + 1 = j + 1 - 1 - p := by omega
  simp only [candidateAt, Candidate.follow, hright, hsince, hdistance]

variable {det : Detector}

theorem Tracks.best_lt (h : d.Tracks x i j det.candidate) (hbest : det.best < d.powerAt x j)
    (hq : q < j) (hfull : i + d.filter.span ≤ q + 1) (habove : d.threshold < d.powerAt x q) :
    d.powerAt x q < d.powerAt x j := by
  unfold Detector.best at hbest
  cases hc : det.candidate with
  | none =>
    rw [hc] at h hbest
    have hle := h q hq hfull habove
    rw [Fixed.lt_iff] at hle hbest ⊢
    exact (not_lt.1 hle).trans_lt hbest
  | some c =>
    rw [hc] at h hbest
    obtain ⟨p, hp, rfl⟩ := h
    have hbest : d.powerAt x p < d.powerAt x j := hbest
    obtain hlt | rfl | hlt := lt_trichotomy q p
    · have := hp.earlier q hlt hfull habove
      rw [Fixed.lt_iff] at this hbest ⊢
      exact this.trans hbest
    · exact hbest
    · have := hp.later q hlt hq habove
      rw [Fixed.lt_iff] at this hbest ⊢
      exact (not_lt.1 this).trans_lt hbest

theorem Tracks.best_nonneg (h : d.Tracks x i j det.candidate) (hbest : det.best < d.powerAt x j) :
    0 < d.powerAt x j := by
  unfold Detector.best at hbest
  cases hc : det.candidate with
  | none =>
    rw [hc] at hbest
    exact hbest
  | some c =>
    rw [hc] at h hbest
    obtain ⟨p, hp, rfl⟩ := h
    have hbest : d.powerAt x p < d.powerAt x j := hbest
    have hpos := hp.pos
    rw [Fixed.lt_iff] at hpos hbest ⊢
    exact hpos.trans hbest

theorem Tracks.start (h : d.Tracks x i j det.candidate)
    (hrec : det.Recalls d.filter (segment x i j).reverse) (hfull : i + d.filter.span ≤ j + 1)
    (hbest : det.best < d.powerAt x j) (habove : d.threshold < d.powerAt x j) :
    d.IsBest x i j (j + 1) ∧
      Candidate.start det.previous (d.powerAt x j) (x j) = d.candidateAt x i j (j + 1) := by
  have hj : d.IsBest x i j (j + 1) :=
    { full := hfull
      before := Nat.lt_succ_self j
      above := habove
      pos := h.best_nonneg hbest
      earlier := fun q hq hfull habove ↦ h.best_lt hbest hq hfull habove
      later := fun q hq hq' ↦ by omega }
  have hspan := span_pos_of_powerAt hj.pos
  have hprevious : det.previous = if i + d.filter.span ≤ j then d.powerAt x (j - 1) else 0 := by
    rw [hrec.previous_eq, List.length_reverse, length_segment]
    by_cases hlt : i + d.filter.span ≤ j
    · have hpower := power_segment (d := d) (x := x) (i := i) (j := j - 1) (by omega)
      rw [Nat.sub_add_cancel (by omega)] at hpower
      rw [if_neg (by omega), if_pos hlt, hpower]
    · rw [if_pos (by omega), if_neg hlt]
  refine ⟨hj, ?_⟩
  simp only [candidateAt, Candidate.start, hprevious, Nat.lt_irrefl, if_false,
    segment_cons x (Nat.lt_succ_self j), segment_self, List.reverse_singleton,
    Nat.add_sub_cancel, Nat.sub_self]

theorem Tracks.push (h : d.Tracks x i j det.candidate)
    (hrec : det.Recalls d.filter (segment x i j).reverse) (hij : i ≤ j) :
    d.Tracks x i (j + 1) (det.push d.filter d.threshold (x j)).1.candidate := by
  have hlength : (segment x i j).reverse.length = j - i := by
    rw [List.length_reverse, length_segment]
  have hpast : x j :: (segment x i j).reverse = (segment x i (j + 1)).reverse := by
    rw [segment_snoc x hij, List.reverse_append]
    rfl
  have hcases := hrec.push_cases d.threshold (x j)
  rw [hlength, hpast] at hcases
  obtain ⟨hshort, hc⟩ | ⟨hfull, hbest, habove, hc⟩ | ⟨hfull, hnot, hc⟩ := hcases
  · rw [hc]
    cases hcand : det.candidate with
    | none => exact fun q hq hq' ↦ by omega
    | some c =>
      rw [hcand] at h
      obtain ⟨p, hp, -⟩ := h
      have := hp.full
      have := hp.before
      omega
  · rw [power_segment (by omega)] at hbest habove hc
    obtain ⟨hj, hstart⟩ := h.start hrec (by omega) hbest habove
    rw [hc, hstart]
    exact ⟨j, hj, rfl⟩
  · rw [power_segment (by omega)] at hnot hc
    rw [hc]
    unfold Detector.best at hnot
    cases hcand : det.candidate with
    | none =>
      rw [hcand] at h hnot
      intro q hq hq' habove hpos
      obtain hq | rfl := Nat.lt_succ_iff_lt_or_eq.1 hq
      · exact h q hq hq' habove hpos
      · exact hnot ⟨hpos, habove⟩
    | some c =>
      rw [hcand] at h hnot
      obtain ⟨p, hp, rfl⟩ := h
      exact ⟨p, hp.succ hnot, candidateAt_follow hp.before⟩

structure Hunts (d : Demodulator) (x : ℕ → Sample) (i j : ℕ) (det : Detector) : Prop where
  le : i ≤ j
  recalls : det.Recalls d.filter (segment x i j).reverse
  tracks : d.Tracks x i j det.candidate
  unlocked : ∀ p, p + d.filter.span < j → ¬d.IsBest x i p (p + d.filter.span + 1)

theorem hunts_start (d : Demodulator) (x : ℕ → Sample) (i : ℕ) : d.Hunts x i i .start where
  le := Nat.le_refl i
  recalls := by
    rw [segment_self]
    exact Detector.recalls_start _
  tracks := fun q hq hfull habove hpos ↦ by
    have := span_pos_of_powerAt hpos
    omega
  unlocked := fun p hp hbest ↦ by
    have := hbest.full
    have := span_pos_of_powerAt hbest.pos
    omega

theorem Hunts.push (h : d.Hunts x i j det) :
    d.Hunts x i (j + 1) (det.push d.filter d.threshold (x j)).1 ∧
        (det.push d.filter d.threshold (x j)).1.settled d.filter = none ∨
      ∃ p, j = p + d.filter.span ∧ d.IsLock x i p ∧
        (det.push d.filter d.threshold (x j)).1.settled d.filter =
          some (d.candidateAt x i p (j + 1)) := by
  have htracks := h.tracks.push h.recalls h.le
  have hrecalls := h.recalls.push d.threshold (x j)
  have hpast : x j :: (segment x i j).reverse = (segment x i (j + 1)).reverse := by
    rw [segment_snoc x h.le, List.reverse_append]
    rfl
  rw [hpast] at hrecalls
  generalize (det.push d.filter d.threshold (x j)).1 = det' at htracks hrecalls
  cases hset : det'.settled d.filter with
  | none =>
    refine .inl ⟨⟨Nat.le_succ_of_le h.le, hrecalls, htracks, fun q hq hbest ↦ ?_⟩, rfl⟩
    obtain hq | rfl := Nat.lt_succ_iff_lt_or_eq.1 hq
    · exact h.unlocked q hq hbest
    -- a match that nothing exceeds up to here is the candidate, which would be settled
    · cases hc : det'.candidate with
      | none =>
        rw [hc] at htracks
        exact htracks q hbest.before hbest.full hbest.above hbest.pos
      | some c =>
        rw [hc] at htracks
        obtain ⟨p, hp, rfl⟩ := htracks
        obtain rfl := hp.eq hbest
        rw [Detector.settled, hc, Option.filter_eq_none_iff] at hset
        refine hset _ rfl ?_
        simp [candidateAt]
  | some c =>
    obtain ⟨hc, hdistance⟩ := Option.filter_eq_some_iff.1 hset
    rw [hc] at htracks
    obtain ⟨p, hp, rfl⟩ := htracks
    have hle : d.filter.span ≤ j - p := by simpa [candidateAt] using hdistance
    have hpos := span_pos_of_powerAt hp.pos
    have hj : j = p + d.filter.span := by
      by_contra hne
      exact h.unlocked p (by omega) (hp.mono (by omega) (by omega))
    subst hj
    refine .inr ⟨p, rfl, ⟨hp, fun q hq ↦ ?_⟩, rfl⟩
    by_contra hlt
    exact h.unlocked q (by omega) hq

variable {packet : List UInt8} {lastIndex : Option UInt8}

theorem carries_of_candidateAt {c : Candidate} {es : List Event} (h : d.IsLock x i p)
    (hc : c = d.candidateAt x i p (p + d.filter.span + 1)) {det : Detector}
    (hset : (det.push d.filter d.threshold (x (p + d.filter.span))).1.settled d.filter = some c)
    {xs : List Sample}
    (hrun : d.Carries (d.entry x i p ⟨.search det, packet, lastIndex⟩).1
      (segment x (d.entry x i p ⟨.search det, packet, lastIndex⟩).2 (p + d.filter.span + 1) ++ xs)
      es τ) :
    d.Carries ⟨.search det, packet, lastIndex⟩ (x (p + d.filter.span) :: xs) es τ := by
  have hpos := span_pos_of_powerAt h.1.pos
  have hobs : (d.observe ⟨.search det, packet, lastIndex⟩ (x (p + d.filter.span))).1.settled
      d.filter = some c := by
    rw [observe_search]
    exact hset
  have hsince : c.since.reverse = segment x p (p + d.filter.span + 1) := by
    rw [hc, candidateAt, List.reverse_reverse]
  have hlength : c.since.length ≤ d.filter.span + 1 := by
    rw [← List.length_reverse, hsince, length_segment]
    omega
  have hright : c.right = some (d.powerAt x (p + 1)) := by
    rw [hc]
    exact if_pos (by omega)
  have hoffset : estimateAdjustment c.left c.peak (c.right.getD c.left) = d.offsetAt x i p := by
    rw [hright, Option.getD_some, hc]
    rfl
  refine carries_of_lock hobs hlength ?_
  unfold entry at hrun
  rw [segment_cons x (by omega)] at hsince
  split_ifs at hrun with hoff
  · obtain ⟨hstate, hreplay⟩ := lock_of_nonneg
      (σ := (d.observe ⟨.search det, packet, lastIndex⟩ (x (p + d.filter.span))).1) hsince
      (by rwa [hoffset])
    rw [hstate, hreplay, hoffset]
    exact hrun
  · rw [segment_cons x (by omega)] at hsince
    obtain ⟨hstate, hreplay⟩ := lock_of_neg
      (σ := (d.observe ⟨.search det, packet, lastIndex⟩ (x (p + d.filter.span))).1) hsince
      (by rwa [hoffset])
    rw [hstate, hreplay, hoffset]
    exact hrun

theorem entry_le (h : 0 < d.filter.span) (σ : State) :
    p + 1 ≤ (d.entry x i p σ).2 ∧ (d.entry x i p σ).2 ≤ p + d.filter.span + 1 := by
  unfold entry
  split_ifs
  · exact ⟨le_rfl, by omega⟩
  · exact ⟨Nat.le_succ _, by omega⟩

theorem Hunts.run (h : d.Hunts x i j det) (packet : List UInt8) (lastIndex : Option UInt8)
    (k : ℕ) :
    (∃ τ, d.Carries ⟨.search det, packet, lastIndex⟩ (segment x j (j + k)) [] τ ∧
      ∀ p, d.IsLock x i p → j + k ≤ p + d.filter.span) ∨
    ∃ p, d.IsLock x i p ∧ p + d.filter.span < j + k ∧ ∀ es τ,
      d.Carries (d.entry x i p ⟨.search det, packet, lastIndex⟩).1
        (segment x (d.entry x i p ⟨.search det, packet, lastIndex⟩).2 (j + k)) es τ →
      d.Carries ⟨.search det, packet, lastIndex⟩ (segment x j (j + k)) es τ := by
  induction k generalizing j det with
  | zero =>
    rw [Nat.add_zero, segment_self]
    refine .inl ⟨_, .nil, fun p hp ↦ ?_⟩
    by_contra hlt
    exact h.unlocked p (not_le.1 hlt) hp.1
  | succ k ih =>
    rw [Nat.add_comm k, ← Nat.add_assoc]
    have hcons : segment x j (j + 1 + k) = x j :: segment x (j + 1) (j + 1 + k) :=
      segment_cons x (by omega)
    obtain ⟨hnext, hset⟩ | ⟨p, rfl, hp, hset⟩ := h.push
    · rw [hcons]
      obtain ⟨τ, hτ, hnone⟩ | ⟨p, hp, hlt, hrun⟩ := ih hnext
      · exact .inl ⟨τ, carries_of_search hset hτ, hnone⟩
      · exact .inr ⟨p, hp, hlt, fun es τ hes ↦ carries_of_search hset (hrun es τ hes)⟩
    · have hle := (entry_le (x := x) (i := i) (p := p) (span_pos_of_powerAt hp.1.pos)
        ⟨.search det, packet, lastIndex⟩).2
      refine .inr ⟨p, hp, by omega, fun es τ hes ↦ ?_⟩
      rw [hcons]
      rw [← segment_append x hle (Nat.le_add_right _ k)] at hes
      exact carries_of_candidateAt hp rfl hset hes

variable {e : ℕ} {r : Slicer} {stage : Stage}

theorem ReadsFrame.le (h : d.ReadsFrame x σ j e es τ) : j ≤ e := by
  induction h with
  | ends => exact le_rfl
  | goes _ _ ih => omega

theorem ReadsFrame.phase_eq (h : d.ReadsFrame x σ j e es τ) : τ.phase = .search .start := by
  induction h with
  | ends h => exact h
  | goes _ _ ih => exact ih

theorem ReadsFrame.unique {e' : ℕ} {es' : List Event} {τ' : State}
    (h : d.ReadsFrame x σ j e es τ) (h' : d.ReadsFrame x σ j e' es' τ') :
    e = e' ∧ es = es' ∧ τ = τ' := by
  induction h generalizing e' es' τ' with
  | ends hphase =>
    cases h' with
    | ends => exact ⟨rfl, rfl, rfl⟩
    | goes hphase' => cases hphase.symm.trans hphase'
  | goes hphase _ ih =>
    cases h' with
    | ends hphase' => cases hphase'.symm.trans hphase
    | goes _ h' =>
      obtain ⟨rfl, rfl, rfl⟩ := ih h'
      exact ⟨rfl, rfl, rfl⟩

theorem reads_or_carries (x : ℕ → Sample) (j k : ℕ) (r : Slicer) (stage : Stage)
    (packet : List UInt8) (lastIndex : Option UInt8) :
    (∃ e es τ, e < j + k ∧ d.ReadsFrame x ⟨.extract r stage, packet, lastIndex⟩ j e es τ ∧
      d.Carries ⟨.extract r stage, packet, lastIndex⟩ (segment x j (e + 1)) es τ) ∨
    (∃ τ, d.Carries ⟨.extract r stage, packet, lastIndex⟩ (segment x j (j + k)) [] τ) ∧
      ∀ e es τ, d.ReadsFrame x ⟨.extract r stage, packet, lastIndex⟩ j e es τ → j + k ≤ e := by
  induction k generalizing j r stage packet lastIndex with
  | zero =>
    rw [Nat.add_zero, segment_self]
    exact .inr ⟨⟨_, .nil⟩, fun e es τ h ↦ h.le⟩
  | succ k ih =>
    rw [Nat.add_comm k, ← Nat.add_assoc]
    obtain ⟨r', stage', hphase⟩ | hphase :=
      phase_observe_extract (d := d) (p := packet) (i := lastIndex) r stage (x j)
    · have hnone := events_observe_extract hphase
      obtain ⟨⟨phase, packet', lastIndex'⟩, hnext⟩ :
          ∃ σ, (d.observe ⟨.extract r stage, packet, lastIndex⟩ (x j)).1 = σ := ⟨_, rfl⟩
      obtain rfl : phase = .extract r' stage' := by
        rw [hnext] at hphase
        exact hphase
      have hcarries : ∀ {xs es τ}, d.Carries ⟨.extract r' stage', packet', lastIndex'⟩ xs es τ →
          d.Carries ⟨.extract r stage, packet, lastIndex⟩ (x j :: xs) es τ := by
        intro xs es τ h
        rw [← hnext] at h
        have h := Carries.cons (σ := ⟨.extract r stage, packet, lastIndex⟩)
          (by rwa [step_extract])
        rwa [step_extract, hnone, List.nil_append] at h
      obtain ⟨e, es, τ, hlt, hreads, hes⟩ | ⟨⟨τ, hτ⟩, hnot⟩ :=
        ih (j + 1) r' stage' packet' lastIndex'
      · refine .inl ⟨e, es, τ, hlt, ?_, ?_⟩
        · rw [← hnext] at hreads
          have hgoes := ReadsFrame.goes hphase hreads
          rwa [hnone, List.nil_append] at hgoes
        · rw [segment_cons x (Nat.lt_succ_of_le (Nat.le_of_succ_le hreads.le))]
          exact hcarries hes
      · refine .inr ⟨⟨τ, ?_⟩, fun e es τ h ↦ ?_⟩
        · rw [segment_cons x (by omega)]
          exact hcarries hτ
        · cases h with
          | ends hphase' => cases hphase.symm.trans hphase'
          | goes _ h =>
            rw [hnext] at h
            exact hnot e _ τ h
    · refine .inl ⟨j, _, _, by omega, .ends hphase, ?_⟩
      rw [segment_cons x (Nat.lt_succ_self j), segment_self, ← step_extract]
      have hlast :=
        Carries.cons (d := d) (σ := ⟨.extract r stage, packet, lastIndex⟩) (s := x j) .nil
      rwa [List.append_nil] at hlast

variable {ep : Episode} {eps : List Episode}

theorem IsEpisode.unique {ep' : Episode} {τ' : State} (h : d.IsEpisode x i σ ep τ)
    (h' : d.IsEpisode x i σ ep' τ') : ep = ep' ∧ τ = τ' := by
  obtain ⟨peak, stop, events⟩ := ep
  obtain ⟨peak', stop', events'⟩ := ep'
  obtain rfl : peak = peak' := h.lock.unique h'.lock
  obtain ⟨rfl, rfl, rfl⟩ := h.frame.unique h'.frame
  exact ⟨rfl, rfl⟩

theorem IsEpisode.peak_lt (h : d.IsEpisode x i σ ep τ) : ep.peak < ep.stop :=
  (entry_le (span_pos_of_powerAt h.lock.1.pos) σ).1.trans h.frame.le

theorem Reference.le_peak (h : d.Reference x i σ eps) :
    ∀ ep ∈ eps, i + d.filter.span ≤ ep.peak + 1 := by
  induction h with
  | nil => exact nofun
  | cons hep _ ih =>
    have hfull := hep.lock.1.full
    have hlt := hep.peak_lt
    refine List.forall_mem_cons.2 ⟨hfull, fun ep hmem ↦ ?_⟩
    have := ih ep hmem
    omega

theorem Reference.filter_eq_nil (h : d.Reference x i σ eps)
    (hn : ∀ ep τ, d.IsEpisode x i σ ep τ → n ≤ ep.settled d.filter.span) :
    eps.filter (·.settled d.filter.span < n) = [] := by
  cases h with
  | nil => rfl
  | @cons _ _ τ ep eps hep hrest =>
    have hfirst := hn ep τ hep
    have hlt := hep.peak_lt
    refine List.filter_eq_nil_iff.2 (List.forall_mem_cons.2 ⟨by simpa using hfirst, ?_⟩)
    intro ep' hmem
    have hlater := hrest.le_peak ep' hmem
    have hn' : n ≤ ep'.settled d.filter.span := by
      unfold Episode.settled at hfirst ⊢
      omega
    simpa using hn'

theorem episode_or_carries (x : ℕ → Sample) (hσ : σ.phase = .search .start) (hin : i ≤ n) :
    (∃ ep τ, d.IsEpisode x i σ ep τ ∧ ep.settled d.filter.span < n ∧ ∀ es υ,
      d.Carries τ (segment x (ep.stop + 1) n) es υ →
      d.Carries σ (segment x i n) (ep.events ++ es) υ) ∨
    (∃ τ, d.Carries σ (segment x i n) [] τ) ∧
      ∀ ep τ, d.IsEpisode x i σ ep τ → n ≤ ep.settled d.filter.span := by
  obtain ⟨phase, packet, lastIndex⟩ := σ
  obtain rfl : phase = .search .start := hσ
  obtain ⟨k, rfl⟩ := Nat.exists_eq_add_of_le hin
  obtain ⟨τ, hτ, hnone⟩ | ⟨p, hp, hlt, hrun⟩ :=
    (hunts_start d x i).run packet lastIndex k
  · refine .inr ⟨⟨τ, hτ⟩, fun ep τ hep ↦ (hnone ep.peak hep.lock).trans (le_max_left _ _)⟩
  · have hle := (entry_le (x := x) (i := i) (p := p) (span_pos_of_powerAt hp.1.pos)
      ⟨.search .start, packet, lastIndex⟩).2
    obtain ⟨r, hentry⟩ : ∃ r, (d.entry x i p ⟨.search .start, packet, lastIndex⟩).1 =
        ⟨.extract r (.header none), packet, lastIndex⟩ := by
      unfold entry
      split_ifs
      · exact ⟨_, rfl⟩
      · exact ⟨_, rfl⟩
    generalize hj : (d.entry x i p ⟨.search .start, packet, lastIndex⟩).2 = j at hle hrun
    have hjk : j + (i + k - j) = i + k := by omega
    have hframe := reads_or_carries (d := d) x j (i + k - j) r (.header none) packet lastIndex
    rw [hjk, ← hentry] at hframe
    obtain ⟨e, es, τ, he, hreads, hes⟩ | ⟨⟨τ, hτ⟩, hnot⟩ := hframe
    · refine .inl ⟨⟨p, e, es⟩, τ, ⟨hp, hj ▸ hreads⟩, max_lt hlt he, fun fs υ hfs ↦ hrun _ υ ?_⟩
      rw [← segment_append x (Nat.le_succ_of_le hreads.le) he]
      exact hes.append hfs
    · refine .inr ⟨⟨τ, hrun [] τ hτ⟩, fun ep υ hep ↦ ?_⟩
      have hpeak : ep.peak = p := hep.lock.unique hp
      have hreads := hep.frame
      rw [hpeak, hj] at hreads
      exact (hnot _ _ _ hreads).trans (le_max_right _ _)

/-- The episodes of a signal, of which every further one is settled at `n` or later. -/
structure Covers (d : Demodulator) (x : ℕ → Sample) (n i : ℕ) (σ : State) (eps : List Episode) :
    Prop where
  reference : d.Reference x i σ eps
  complete : ∀ ep, d.Reference x i σ (eps ++ [ep]) → n ≤ ep.settled d.filter.span

theorem Covers.cons (h : d.Covers x n (ep.stop + 1) τ eps) (hep : d.IsEpisode x i σ ep τ) :
    d.Covers x n i σ (ep :: eps) := by
  refine ⟨.cons hep h.reference, fun ep' h' ↦ ?_⟩
  cases h' with
  | cons hep' h' =>
    obtain ⟨-, rfl⟩ := hep.unique hep'
    exact h.complete ep' h'

theorem Covers.of_cons {ep' : Episode} (h : d.Covers x n i σ (ep' :: eps))
    (hep : d.IsEpisode x i σ ep τ) : ep' = ep ∧ d.Covers x n (ep.stop + 1) τ eps := by
  obtain ⟨href, hcomplete⟩ := h
  cases href with
  | cons hep' href =>
    obtain ⟨rfl, rfl⟩ := hep.unique hep'
    exact ⟨rfl, href, fun ep'' h ↦ hcomplete ep'' (.cons hep h)⟩

theorem covers_and_carries (d : Demodulator) (x : ℕ → Sample) (hin : i ≤ n)
    (hσ : σ.phase = .search .start) :
    (∃ eps, d.Covers x n i σ eps) ∧ ∀ eps, d.Covers x n i σ eps → ∃ τ, d.Carries σ (segment x i n)
      ((eps.filter (·.settled d.filter.span < n)).flatMap Episode.events) τ := by
  induction hk : n - i using Nat.strong_induction_on generalizing i σ with
  | _ k ih =>
    obtain ⟨ep, τ, hep, hlt, hrun⟩ | ⟨⟨τ, hτ⟩, hnone⟩ := episode_or_carries (d := d) x hσ hin
    · have hstop : ep.stop < n := (le_max_right _ _).trans_lt hlt
      have hfull := hep.lock.1.full
      have hpeak := hep.peak_lt
      have hnext := ih (n - (ep.stop + 1)) (by omega) (by omega) hep.frame.phase_eq rfl
      obtain ⟨⟨rest, hrest⟩, hall⟩ := hnext
      refine ⟨⟨ep :: rest, hrest.cons hep⟩, fun eps heps ↦ ?_⟩
      cases eps with
      | nil => exact absurd hlt (not_lt.2 (heps.complete ep (.cons hep .nil)))
      | cons ep' eps =>
        obtain ⟨rfl, heps⟩ := heps.of_cons hep
        obtain ⟨υ, hυ⟩ := hall eps heps
        refine ⟨υ, ?_⟩
        rw [List.filter_cons_of_pos (by simpa using hlt), List.flatMap_cons]
        exact hrun _ υ hυ
    · refine ⟨⟨[], .nil, fun ep h ↦ ?_⟩, fun eps heps ↦ ⟨τ, ?_⟩⟩
      · cases h with
        | cons hep _ => exact hnone ep _ hep
      · rw [heps.reference.filter_eq_nil hnone]
        exact hτ

/-- A demodulator that has come to `n` has told what the reference tells of the episodes that are
settled by then, and nothing else. -/
theorem events_run_reference (d : Demodulator) (x : ℕ → Sample) (n : ℕ) :
    (∃ eps, d.Covers x n 0 .initial eps) ∧ ∀ eps, d.Covers x n 0 .initial eps →
      events (d.run .initial ((List.range n).map x)).2 =
        (eps.filter (·.settled d.filter.span < n)).flatMap Episode.events := by
  obtain ⟨hcovers, hall⟩ := d.covers_and_carries x (Nat.zero_le n) (σ := .initial) rfl
  refine ⟨hcovers, fun eps heps ↦ ?_⟩
  obtain ⟨τ, hτ⟩ := hall eps heps
  rw [segment, Nat.sub_zero, ← List.range_eq_range'] at hτ
  exact hτ.2

end Demodulator

end SoundLink
