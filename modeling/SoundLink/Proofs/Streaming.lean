import SoundLink.Frame.Demodulator
import Mathlib.Tactic

namespace SoundLink

theorem Window.samples_push (span : ℕ) (w : Window) (s : Sample) :
    (w.push span s).samples = (s :: w.samples).take span := by
  unfold Window.push
  split
  · rename_i h
    rw [w.size_eq] at h
    exact (List.take_of_length_le h).symm
  · rfl

theorem MatchedFilter.correlate_take (sum : Int64) (as bs : List Sample) {n : ℕ}
    (h : bs.length ≤ n) :
    correlate sum (as.take n) bs = correlate sum as bs := by
  induction as generalizing sum bs n with
  | nil => rw [List.take_nil]
  | cons a as ih =>
    cases bs with
    | nil => cases n <;> simp [correlate]
    | cons b bs =>
      obtain ⟨k, rfl⟩ := Nat.exists_eq_succ_of_ne_zero (show n ≠ 0 by rintro rfl; simp at h)
      rw [List.take_succ_cons, correlate, correlate, ih _ _ (Nat.le_of_succ_le_succ h)]

theorem MatchedFilter.power_take (f : MatchedFilter) (newest : List Sample) :
    f.power (newest.take f.span) = f.power newest := by
  rw [power, correlate_take _ _ _ f.span_eq.ge, power]

namespace Detector

/-- What is kept of a stream, given the last first: the newest samples and, once there are enough of
them, their power. -/
structure Recalls (f : MatchedFilter) (past : List Sample) (d : Detector) : Prop where
  samples_eq : d.window.samples = past.take f.span
  previous_eq : d.previous = if past.length < f.span then 0 else f.power past

variable {f : MatchedFilter} {past : List Sample} {d : Detector}

theorem recalls_start (f : MatchedFilter) : Recalls f [] start := by
  refine ⟨by simp [start, Window.empty], ?_⟩
  split
  · rfl
  · simp [start, MatchedFilter.power, MatchedFilter.correlate]
    rfl

theorem Recalls.samples_push (h : Recalls f past d) (s : Sample) :
    (d.window.push f.span s).samples = (s :: past).take f.span := by
  rw [Window.samples_push, h.samples_eq]
  cases f.span with
  | zero => rfl
  | succ n => rw [List.take_succ_cons, List.take_succ_cons, List.take_take,
      min_eq_left (Nat.le_succ n)]

theorem Recalls.size_push (h : Recalls f past d) (s : Sample) :
    (d.window.push f.span s).size = min f.span (past.length + 1) := by
  rw [Window.size_eq, h.samples_push, List.length_take, List.length_cons]

variable (threshold : Fixed)

theorem Recalls.push_cases (h : Recalls f past d) (s : Sample) :
    past.length + 1 < f.span ∧ (d.push f threshold s).1.candidate = d.candidate ∨
      f.span ≤ past.length + 1 ∧ d.best < f.power (s :: past) ∧ threshold < f.power (s :: past) ∧
        (d.push f threshold s).1.candidate = some (.start d.previous (f.power (s :: past)) s) ∨
      f.span ≤ past.length + 1 ∧ ¬(d.best < f.power (s :: past) ∧ threshold < f.power (s :: past)) ∧
        (d.push f threshold s).1.candidate =
          d.candidate.map (·.follow (f.power (s :: past)) s) := by
  have hp : f.power (d.window.push f.span s).samples = f.power (s :: past) := by
    rw [h.samples_push, f.power_take]
  by_cases hlt : past.length + 1 < f.span
  · refine .inl ⟨hlt, ?_⟩
    have hsize : (d.window.push f.span s).size < f.span := by rw [h.size_push]; omega
    simp [push, hsize]
  · have hsize : ¬(d.window.push f.span s).size < f.span := by rw [h.size_push]; omega
    by_cases hbest : d.best < f.power (s :: past) ∧ threshold < f.power (s :: past)
    · exact .inr (.inl ⟨by omega, hbest.1, hbest.2, by simp [push, hsize, hp, hbest]⟩)
    · exact .inr (.inr ⟨by omega, hbest, by simp only [push, hsize, hp, if_neg hbest, if_false]⟩)

theorem Recalls.push (h : Recalls f past d) (s : Sample) :
    Recalls f (s :: past) (d.push f threshold s).1 := by
  have hsamples := h.samples_push s
  have hsize := h.size_push s
  have hp : f.power (d.window.push f.span s).samples = f.power (s :: past) := by
    rw [hsamples, f.power_take]
  unfold Detector.push
  by_cases hlt : (d.window.push f.span s).size < f.span
  · rw [if_pos hlt]
    have hprev := h.previous_eq
    rw [if_pos (by omega)] at hprev
    exact ⟨hsamples, by rw [List.length_cons, if_pos (by omega)]; exact hprev⟩
  · rw [if_neg hlt]
    have hfull : ¬(s :: past).length < f.span := by rw [List.length_cons]; omega
    dsimp only
    split <;> exact ⟨hsamples, by rw [if_neg hfull]; exact hp⟩

theorem settled_eq_none (h : ∀ c, d.candidate = some c → c.distance < f.span) :
    d.settled f = none :=
  Option.filter_eq_none_iff.2 fun c hc ↦ by
    rw [decide_eq_true_eq, not_le]
    exact h c hc

end Detector

namespace Demodulator

variable (d : Demodulator)

theorem foldl_reports {S R : Type} (f : S → Sample → S × List R) (xs : List Sample) (σ : S)
    (acc : List R) :
    xs.foldl (fun (σ, acc) s ↦ let (σ, new) := f σ s; (σ, new.reverse ++ acc)) (σ, acc) =
      ((xs.foldl (fun (σ, acc) s ↦ let (σ, new) := f σ s; (σ, new.reverse ++ acc)) (σ, [])).1,
        (xs.foldl (fun (σ, acc) s ↦ let (σ, new) := f σ s; (σ, new.reverse ++ acc)) (σ, [])).2 ++
          acc) := by
  induction xs generalizing σ acc with
  | nil => rfl
  | cons s xs ih =>
    rw [List.foldl_cons, List.foldl_cons, ih, ih (f σ s).1 (_ ++ [])]
    simp

@[simp] theorem run_nil (σ : State) : d.run σ [] = (σ, []) := rfl

theorem run_cons (σ : State) (s : Sample) (xs : List Sample) :
    d.run σ (s :: xs) =
      ((d.run (d.step σ s).1 xs).1, (d.step σ s).2 ++ (d.run (d.step σ s).1 xs).2) := by
  unfold run
  rw [List.foldl_cons, foldl_reports]
  simp

theorem run_samples_append (σ : State) (xs ys : List Sample) :
    d.run σ (xs ++ ys) =
      ((d.run (d.run σ xs).1 ys).1, (d.run σ xs).2 ++ (d.run (d.run σ xs).1 ys).2) := by
  induction xs generalizing σ with
  | nil => rfl
  | cons s xs ih => rw [List.cons_append, run_cons, run_cons, ih, List.append_assoc]

@[simp] theorem observeAll_nil (σ : State) : d.observeAll σ [] = (σ, []) := rfl

theorem observeAll_cons (σ : State) (s : Sample) (xs : List Sample) :
    d.observeAll σ (s :: xs) =
      ((d.observeAll (d.observe σ s).1 xs).1,
        (d.observe σ s).2 ++ (d.observeAll (d.observe σ s).1 xs).2) := by
  unfold observeAll
  rw [List.foldl_cons, foldl_reports]
  simp

theorem events_append (rs ts : List Report) : events (rs ++ ts) = events rs ++ events ts :=
  List.filterMap_append

/-- What a stream does to a demodulator: the packets and errors on the way, and the last state. -/
def Carries (σ : State) (xs : List Sample) (es : List Event) (τ : State) : Prop :=
  (d.run σ xs).1 = τ ∧ events (d.run σ xs).2 = es

variable {d}
variable {σ τ υ : State} {s : Sample} {xs ys : List Sample} {es fs : List Event}

theorem Carries.nil : d.Carries σ [] [] σ := ⟨rfl, rfl⟩

theorem Carries.cons (h : d.Carries (d.step σ s).1 xs es τ) :
    d.Carries σ (s :: xs) (events (d.step σ s).2 ++ es) τ := by
  rw [Carries, run_cons, events_append]
  exact ⟨h.1, congrArg _ h.2⟩

theorem carries_cons_iff :
    d.Carries σ (s :: xs) es τ ↔
      ∃ fs, es = events (d.step σ s).2 ++ fs ∧ d.Carries (d.step σ s).1 xs fs τ := by
  constructor
  · rintro ⟨rfl, rfl⟩
    rw [run_cons, events_append]
    exact ⟨_, rfl, rfl, rfl⟩
  · rintro ⟨fs, rfl, h⟩
    exact h.cons

theorem Carries.append (h : d.Carries σ xs es τ) (h' : d.Carries τ ys fs υ) :
    d.Carries σ (xs ++ ys) (es ++ fs) υ := by
  rw [Carries, run_samples_append, events_append, h.1, h.2]
  exact ⟨h'.1, congrArg _ h'.2⟩

theorem carries_append_iff :
    d.Carries σ (xs ++ ys) es τ ↔
      ∃ υ gs fs, es = gs ++ fs ∧ d.Carries σ xs gs υ ∧ d.Carries υ ys fs τ := by
  constructor
  · rintro ⟨rfl, rfl⟩
    rw [run_samples_append, events_append]
    exact ⟨_, _, _, rfl, ⟨rfl, rfl⟩, rfl, rfl⟩
  · rintro ⟨υ, gs, fs, rfl, hxs, hys⟩
    exact hxs.append hys

theorem step_of_settled_eq_none (h : (d.observe σ s).1.settled d.filter = none) :
    d.step σ s = d.observe σ s := by
  simp [step, h]

theorem step_of_settled_eq_some {c : Candidate} (h : (d.observe σ s).1.settled d.filter = some c) :
    d.step σ s =
      ((d.observeAll (lock (d.observe σ s).1 c).1 (lock (d.observe σ s).1 c).2.2).1,
        (d.observe σ s).2 ++ (lock (d.observe σ s).1 c).2.1 ++
          (d.observeAll (lock (d.observe σ s).1 c).1 (lock (d.observe σ s).1 c).2.2).2) := by
  simp [step, h]

def sizeAt (d : Demodulator) : Stage → ℕ
  | .header _ => d.headerSize
  | _ => d.size

theorem observe_extract {p : List UInt8} {i : Option UInt8} (r : Slicer) (stage : Stage)
    (s : Sample) :
    d.observe ⟨.extract r stage, p, i⟩ s =
      match r.push (d.sizeAt stage) s with
      | (r', none) => (⟨.extract r' stage, p, i⟩, [])
      | (r', some codeword) => d.symbol ⟨.extract r stage, p, i⟩ r' stage codeword := by
  cases stage <;> rfl

theorem observe_of_push_none {p : List UInt8} {i : Option UInt8} {r r' : Slicer} {stage : Stage}
    (h : r.push (d.sizeAt stage) s = (r', none)) :
    d.observe ⟨.extract r stage, p, i⟩ s = (⟨.extract r' stage, p, i⟩, []) := by
  rw [observe_extract, h]

theorem observe_of_push_some {p : List UInt8} {i : Option UInt8} {r r' : Slicer} {stage : Stage}
    {codeword : UInt16} (h : r.push (d.sizeAt stage) s = (r', some codeword)) :
    d.observe ⟨.extract r stage, p, i⟩ s = d.symbol ⟨.extract r stage, p, i⟩ r' stage codeword := by
  rw [observe_extract, h]

/-- What a sample can do to a frame: it is added to a sum, or it completes a codeword that has no byte,
or a byte that does not belong there, or one that does. -/
inductive Observes (d : Demodulator) (r : Slicer) (stage : Stage) (p : List UInt8)
    (i : Option UInt8) (s : Sample) : State × List Report → Prop
  | sum {r' : Slicer} (hpush : r.push (d.sizeAt stage) s = (r', none)) :
    Observes d r stage p i s (⟨.extract r' stage, p, i⟩, [])
  | noByte {r' : Slicer} {codeword : UInt16} (hpush : r.push (d.sizeAt stage) s = (r', some codeword))
    (hdecode : LineCode.decode codeword = none) :
    Observes d r stage p i s (.initial, [.failed (.invalidSymbol codeword)])
  | refused {r' : Slicer} {codeword : UInt16} {b : UInt8} {e : DecodeError}
    (hpush : r.push (d.sizeAt stage) s = (r', some codeword))
    (hdecode : LineCode.decode codeword = some b)
    (hreceive : d.receive ⟨.extract r stage, p, i⟩ r' b stage = .error e) :
    Observes d r stage p i s (.initial, [.byte b stage, .failed e])
  | byte {r' : Slicer} {codeword : UInt16} {b : UInt8} {τ : State} {rs : List Report}
    (hpush : r.push (d.sizeAt stage) s = (r', some codeword))
    (hdecode : LineCode.decode codeword = some b)
    (hreceive : d.receive ⟨.extract r stage, p, i⟩ r' b stage = .ok (τ, rs)) :
    Observes d r stage p i s (τ, .byte b stage :: rs)

theorem observes_extract (d : Demodulator) (r : Slicer) (stage : Stage) (p : List UInt8)
    (i : Option UInt8) (s : Sample) :
    d.Observes r stage p i s (d.observe ⟨.extract r stage, p, i⟩ s) := by
  obtain ⟨⟨r', out⟩, hpush⟩ : ∃ pushed, r.push (d.sizeAt stage) s = pushed := ⟨_, rfl⟩
  cases out with
  | none =>
    rw [observe_of_push_none hpush]
    exact .sum hpush
  | some codeword =>
    rw [observe_of_push_some hpush]
    unfold symbol
    cases hdecode : LineCode.decode codeword with
    | none => exact .noByte hpush hdecode
    | some b =>
      cases hreceive : d.receive ⟨.extract r stage, p, i⟩ r' b stage with
      | error e => simpa only [hreceive] using .refused hpush hdecode hreceive
      | ok received => simpa only [hreceive] using .byte hpush hdecode hreceive

theorem observe_search {p : List UInt8} {i : Option UInt8} (det : Detector) (s : Sample) :
    d.observe ⟨.search det, p, i⟩ s =
      (⟨.search (det.push d.filter d.threshold s).1, p, i⟩,
        ((det.push d.filter d.threshold s).2.map .candidate).toList) := rfl

theorem carries_of_search {p : List UInt8} {i : Option UInt8} {det : Detector}
    (hset : (det.push d.filter d.threshold s).1.settled d.filter = none)
    (h : d.Carries ⟨.search (det.push d.filter d.threshold s).1, p, i⟩ xs es τ) :
    d.Carries ⟨.search det, p, i⟩ (s :: xs) es τ := by
  have hstep := step_of_settled_eq_none (σ := ⟨.search det, p, i⟩) (d := d) (s := s)
    (by rw [observe_search, State.settled]; exact hset)
  refine carries_cons_iff.2 ⟨es, ?_, ?_⟩
  · rw [hstep, observe_search]
    cases (det.push d.filter d.threshold s).2 <;> rfl
  · rwa [hstep, observe_search]

theorem phase_receive {r : Slicer} {b : UInt8} {stage : Stage} {rs : List Report}
    (h : d.receive σ r b stage = .ok (τ, rs)) :
    (∃ stage', τ.phase = .extract r stage') ∨ τ.phase = .search .start := by
  cases stage with
  | header first =>
    cases first with
    | none =>
      cases h
      exact .inl ⟨_, rfl⟩
    | some first =>
      simp only [receive, bind, Except.bind] at h
      split at h
      · cases h
      · split at h
        · cases h
        · cases h
          exact .inl ⟨_, rfl⟩
  | payload header chunk crc =>
    cases h
    exact .inl ⟨_, rfl⟩
  | checksum header chunk crc =>
    simp only [receive] at h
    split at h
    · cases h
    · split at h <;> cases h <;> exact .inr rfl

theorem phase_symbol (σ : State) (r : Slicer) (stage : Stage) (codeword : UInt16) :
    (∃ stage', (d.symbol σ r stage codeword).1.phase = .extract r stage') ∨
      (d.symbol σ r stage codeword).1.phase = .search .start := by
  unfold symbol
  split
  · exact .inr rfl
  · split
    · exact phase_receive ‹_›
    · exact .inr rfl

theorem symbol_of_decode_eq_none {codeword : UInt16} (h : LineCode.decode codeword = none)
    (σ : State) (r : Slicer) (stage : Stage) :
    d.symbol σ r stage codeword = (.initial, [.failed (.invalidSymbol codeword)]) := by
  unfold symbol
  rw [h]

theorem settled_eq_none_of_phase {f : MatchedFilter}
    (h : (∃ r stage, σ.phase = .extract r stage) ∨ σ.phase = .search .start) :
    σ.settled f = none := by
  obtain ⟨phase, p, i⟩ := σ
  obtain ⟨r, stage, rfl⟩ | rfl := h <;> rfl

theorem phase_observe_extract {p : List UInt8} {i : Option UInt8} (r : Slicer) (stage : Stage)
    (s : Sample) :
    (∃ r' stage', (d.observe ⟨.extract r stage, p, i⟩ s).1.phase = .extract r' stage') ∨
      (d.observe ⟨.extract r stage, p, i⟩ s).1.phase = .search .start := by
  have h := d.observes_extract r stage p i s
  generalize d.observe ⟨.extract r stage, p, i⟩ s = observed at h
  cases h with
  | sum => exact .inl ⟨_, stage, rfl⟩
  | noByte => exact .inr rfl
  | refused => exact .inr rfl
  | byte _ _ hreceive => exact (phase_receive hreceive).imp_left fun ⟨stage', h⟩ ↦ ⟨_, stage', h⟩

theorem events_receive {r r' : Slicer} {b : UInt8} {stage stage' : Stage} {rs : List Report}
    (h : d.receive σ r b stage = .ok (τ, rs)) (hphase : τ.phase = .extract r' stage') :
    events rs = [] := by
  cases stage with
  | header first =>
    cases first with
    | none =>
      cases h
      rfl
    | some first =>
      simp only [receive, bind, Except.bind] at h
      split at h
      · cases h
      · split at h
        · cases h
        · cases h
          split <;> rfl
  | payload header chunk crc =>
    cases h
    rfl
  | checksum header chunk crc =>
    simp only [receive] at h
    split at h
    · cases h
    · split at h <;> cases h <;> cases hphase

theorem events_observe_extract {p : List UInt8} {i : Option UInt8} {r r' : Slicer}
    {stage stage' : Stage} {s : Sample}
    (h : (d.observe ⟨.extract r stage, p, i⟩ s).1.phase = .extract r' stage') :
    events (d.observe ⟨.extract r stage, p, i⟩ s).2 = [] := by
  have hobserves := d.observes_extract r stage p i s
  generalize d.observe ⟨.extract r stage, p, i⟩ s = observed at h hobserves
  cases hobserves with
  | sum => rfl
  | noByte => cases h
  | refused => cases h
  | byte _ _ hreceive =>
    have hevents := events_receive hreceive h
    exact hevents

theorem step_extract {p : List UInt8} {i : Option UInt8} (r : Slicer) (stage : Stage) (s : Sample) :
    d.step ⟨.extract r stage, p, i⟩ s = d.observe ⟨.extract r stage, p, i⟩ s :=
  step_of_settled_eq_none (settled_eq_none_of_phase ((phase_observe_extract r stage s).imp_left
    fun ⟨r', stage', h⟩ ↦ ⟨r', stage', h⟩))

/-- A search that a lock led to knows only samples after it, fewer than were played again. -/
def Young (d : Demodulator) (past : List Sample) (σ : State) : Prop :=
  match σ.phase with
  | .search det => det.candidate = none ∧ ∃ k < past.length, det.Recalls d.filter (past.take k)
  | .extract .. => True

theorem young_observe {past : List Sample} (h : d.Young past σ) (s : Sample)
    (hlt : past.length < d.filter.span) :
    d.Young (s :: past) (d.observe σ s).1 ∧ (d.observe σ s).1.settled d.filter = none := by
  obtain ⟨phase, p, i⟩ := σ
  cases phase with
  | search det =>
    obtain ⟨hnone, k, hk, hrec⟩ := h
    have hlen : (past.take k).length = k := List.length_take_of_le hk.le
    obtain ⟨-, hc⟩ | ⟨hfull, -⟩ | ⟨hfull, -⟩ := hrec.push_cases d.threshold s
    · rw [hnone] at hc
      refine ⟨⟨hc, k + 1, by simpa using hk, ?_⟩, ?_⟩
      · exact hrec.push d.threshold s
      · simp [State.settled, observe_search, Detector.settled, hc]
    all_goals omega
  | extract r stage =>
    have hphase := phase_observe_extract (d := d) (p := p) (i := i) r stage s
    generalize (d.observe ⟨.extract r stage, p, i⟩ s).1 = τ at hphase
    obtain ⟨phase, q, j⟩ := τ
    obtain ⟨r', stage', rfl⟩ | rfl := hphase
    · exact ⟨trivial, rfl⟩
    · exact ⟨⟨rfl, 0, by simp, Detector.recalls_start _⟩, rfl⟩

theorem observeAll_eq_run {past : List Sample} (h : d.Young past σ)
    (hle : past.length + xs.length ≤ d.filter.span) :
    d.observeAll σ xs = d.run σ xs ∧ d.Young (xs.reverse ++ past) (d.run σ xs).1 := by
  -- a search that is young has too few samples for a candidate, and so no step locks again
  induction xs generalizing σ past with
  | nil => exact ⟨rfl, h⟩
  | cons s xs ih =>
    rw [List.length_cons] at hle
    obtain ⟨hy, hs⟩ := young_observe h s (by omega)
    have hstep := step_of_settled_eq_none hs
    obtain ⟨he, hy'⟩ := ih hy (by rw [List.length_cons]; omega)
    rw [observeAll_cons, run_cons, hstep, he]
    exact ⟨rfl, by simpa using hy'⟩

theorem young_lock (c : Candidate) : d.Young [] (lock σ c).1 := trivial

theorem length_replay_le (σ : State) (c : Candidate) :
    (lock σ c).2.2.length ≤ c.since.length - 1 := by
  simp only [lock, List.length_drop, List.length_reverse]
  omega

theorem lock_of_nonneg {c : Candidate} {a : Sample} (hsince : c.since.reverse = a :: xs)
    (hadj : 0 ≤ estimateAdjustment c.left c.peak (c.right.getD c.left)) :
    (lock σ c).1 = ⟨.extract
      (.start (.ofSample a) (1 - estimateAdjustment c.left c.peak (c.right.getD c.left)))
      (.header none), σ.packet, σ.lastIndex⟩ ∧ (lock σ c).2.2 = xs := by
  unfold lock
  simp only [if_pos hadj, hsince]
  exact ⟨rfl, rfl⟩

theorem lock_of_neg {c : Candidate} {a b : Sample} (hsince : c.since.reverse = a :: b :: xs)
    (hadj : ¬0 ≤ estimateAdjustment c.left c.peak (c.right.getD c.left)) :
    (lock σ c).1 = ⟨.extract
      (.start (.ofSample b) (-estimateAdjustment c.left c.peak (c.right.getD c.left)))
      (.header none), σ.packet, σ.lastIndex⟩ ∧ (lock σ c).2.2 = xs := by
  unfold lock
  simp only [if_neg hadj, hsince]
  exact ⟨rfl, rfl⟩

theorem events_observe_of_settled {c : Candidate}
    (h : (d.observe σ s).1.settled d.filter = some c) :
    events (d.observe σ s).2 = [] := by
  obtain ⟨phase, p, i⟩ := σ
  cases phase with
  | search det =>
    rw [observe_search]
    cases (det.push d.filter d.threshold s).2 <;> rfl
  | extract r stage =>
    rw [settled_eq_none_of_phase (phase_observe_extract r stage s)] at h
    cases h

/-- What is read from the samples since a peak and those that follow is what the search makes of
those that follow. -/
theorem carries_of_lock {c : Candidate} (hc : (d.observe σ s).1.settled d.filter = some c)
    (hl : c.since.length ≤ d.filter.span + 1)
    (h : d.Carries (lock (d.observe σ s).1 c).1 ((lock (d.observe σ s).1 c).2.2 ++ xs) es τ) :
    d.Carries σ (s :: xs) es τ := by
  obtain ⟨υ, gs, fs, rfl, hreplay, hxs⟩ := carries_append_iff.1 h
  have hlen := length_replay_le (d.observe σ s).1 c
  obtain ⟨he, -⟩ := observeAll_eq_run (d := d) (young_lock (σ := (d.observe σ s).1) c)
    (show _ + (lock (d.observe σ s).1 c).2.2.length ≤ _ by rw [List.length_nil]; omega)
  have hlocked : events (lock (d.observe σ s).1 c).2.1 = [] := rfl
  refine carries_cons_iff.2 ⟨fs, ?_, ?_⟩
  · rw [step_of_settled_eq_some hc, events_append, events_append, events_observe_of_settled hc,
      hlocked, he,
      hreplay.2]
    rfl
  · rw [step_of_settled_eq_some hc, he]
    rw [hreplay.1]
    exact hxs

end Demodulator

end SoundLink
