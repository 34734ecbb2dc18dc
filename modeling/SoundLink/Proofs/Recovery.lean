import SoundLink.Frame.Registers
import SoundLink.Proofs.Streaming

namespace SoundLink

theorem Window.eq_of_samples {w w' : Window} (h : w.samples = w'.samples) : w = w' := by
  obtain ⟨samples, size, hsize⟩ := w
  obtain ⟨samples', size', hsize'⟩ := w'
  obtain rfl : samples = samples' := h
  obtain rfl : size = size' := hsize.trans hsize'.symm
  rfl

namespace SearchRegisters

variable {f : MatchedFilter} {threshold : Fixed} {r : SearchRegisters}

def pending (r : SearchRegisters) (c : Peak) : Candidate :=
  ⟨c.left, c.peak, c.right, r.kept.reverse, r.distance⟩

def detector (r : SearchRegisters) : Detector :=
  ⟨⟨r.window, r.window.length, rfl⟩, r.previous, r.candidate.map r.pending⟩

structure Sound (f : MatchedFilter) (r : SearchRegisters) : Prop where
  best_eq : r.best = r.detector.best
  length_kept : ∀ c, r.candidate = some c → r.kept.length = r.distance + 1
  distance_le : ∀ c, r.candidate = some c → r.distance ≤ f.span
  settled_of_le : ∀ c, r.candidate = some c → f.span ≤ r.distance → r.settled f = some c

theorem sound_of_none (hnone : r.candidate = none) (hbest : r.best = 0) : Sound f r := by
  refine ⟨by simp [detector, Detector.best, hnone, hbest], ?_, ?_, ?_⟩ <;>
    exact fun c hc ↦ absurd (hnone.symm.trans hc) (Option.some_ne_none c).symm

theorem Sound.distance_lt (h : Sound f r) (hnone : r.settled f = none) (c : Peak)
    (hc : r.candidate = some c) : r.distance < f.span := by
  by_contra hle
  have hsettled := h.settled_of_le c hc (not_lt.1 hle)
  rw [hnone] at hsettled
  cases hsettled

theorem settled_of_full (hfull : f.span ≤ r.window.length) (c : Peak) (hc : r.candidate = some c)
    (hle : f.span ≤ r.distance) : r.settled f = some c := by
  rw [settled, if_pos ⟨hfull, hle⟩, hc]

theorem detector_compare (power : Fixed) (s : Sample) :
    (r.compare threshold power s).detector =
      if r.best < power ∧ threshold < power then
        ⟨r.detector.window, power, some (.start r.previous power s)⟩
      else ⟨r.detector.window, power, r.detector.candidate.map (·.follow power s)⟩ := by
  unfold compare
  split
  · rfl
  · cases hc : r.candidate with
    | none => simp [detector, hc]
    | some c => simp [detector, hc, pending, Candidate.follow]

theorem sound_compare (h : Sound f r) (hnone : r.settled f = none) (hfull : f.span ≤ r.window.length)
    (power : Fixed) (s : Sample) : Sound f (r.compare threshold power s) := by
  unfold compare
  split
  · exact ⟨rfl, fun _ _ ↦ rfl, fun _ _ ↦ Nat.zero_le _, settled_of_full hfull⟩
  · cases hc : r.candidate with
    | none =>
      have hbest := h.best_eq
      rw [detector, Detector.best, hc] at hbest
      exact sound_of_none rfl hbest
    | some c =>
      have hbest := h.best_eq
      rw [detector, Detector.best, hc] at hbest
      have hlt := h.distance_lt hnone c hc
      exact ⟨hbest, fun _ _ ↦ by simp [h.length_kept c hc], fun _ _ ↦ hlt, settled_of_full hfull⟩

theorem detector_push (hbest : r.best = r.detector.best) (s : Sample) :
    (r.push f threshold s).detector = (r.detector.push f threshold s).1 := by
  have hwindow : r.detector.window.push f.span s =
      ⟨(s :: r.window).take f.span, ((s :: r.window).take f.span).length, rfl⟩ :=
    Window.eq_of_samples (Window.samples_push _ _ _)
  by_cases hshort : ((s :: r.window).take f.span).length < f.span
  · simp only [push, Detector.push, hwindow, if_pos hshort]
    rfl
  · simp only [push, Detector.push, hwindow, if_neg hshort, detector_compare, ← hbest]
    split <;> rfl

variable (threshold) in
theorem Sound.push (h : Sound f r) (hnone : r.settled f = none) (s : Sample) :
    Sound f (r.push f threshold s) := by
  have hlt := h.distance_lt hnone
  by_cases hshort : ((s :: r.window).take f.span).length < f.span
  · rw [SearchRegisters.push, if_pos hshort]
    exact ⟨h.best_eq, h.length_kept, h.distance_le, fun c hc hle ↦ absurd (hlt c hc) hle.not_gt⟩
  · rw [SearchRegisters.push, if_neg hshort]
    refine sound_compare (r := { r with window := (s :: r.window).take f.span })
      ⟨h.best_eq, h.length_kept, h.distance_le, fun c hc hle ↦ absurd (hlt c hc) hle.not_gt⟩ ?_
      (not_lt.1 hshort) _ s
    unfold settled
    split
    · rename_i hboth
      exact Option.eq_none_iff_forall_ne_some.2 fun c hc ↦ absurd (hlt c hc) hboth.2.not_gt
    · rfl

theorem Sound.settled_detector (h : Sound f r) :
    r.detector.settled f = (r.settled f).map r.pending := by
  cases hc : r.candidate with
  | none => simp [Detector.settled, detector, settled, hc]
  | some c =>
    by_cases hle : f.span ≤ r.distance
    · rw [h.settled_of_le c hc hle]
      simp [Detector.settled, detector, hc, pending, hle]
    · rw [settled, if_neg fun hboth ↦ hle hboth.2]
      simpa [Detector.settled, detector, hc, pending] using hle

theorem Sound.length_kept_le (h : Sound f r) {c : Peak} (hc : r.settled f = some c) :
    r.kept.length ≤ f.span + 1 := by
  have hcandidate : r.candidate = some c := by
    unfold settled at hc
    split at hc
    · exact hc
    · cases hc
  rw [h.length_kept c hcandidate]
  exact Nat.succ_le_succ (h.distance_le c hcandidate)

end SearchRegisters

namespace Demodulator

/-- What registers stand for: those that the stage uses, and no others. A frame is read with the
search cleared, since that is not done at its end. -/
inductive Shows (d : Demodulator) : Registers → State → Prop
  | search {r : Registers} (hmode : r.mode = .search) (hsound : r.search.Sound d.filter)
      (hnone : r.search.settled d.filter = none) :
      Shows d r ⟨.search r.search.detector, r.packet, r.lastIndex⟩
  | header {r : Registers} {first : Option UInt8} (hmode : r.mode = .header)
      (hclear : r.search = .clear) (hbytes : r.headerBytes = first.toList) :
      Shows d r ⟨.extract r.slicer (.header first), r.packet, r.lastIndex⟩
  | payload {r : Registers} {header : FrameHeader} (hmode : r.mode = .payload)
      (hclear : r.search = .clear) (hheader : r.header = some header) :
      Shows d r ⟨.extract r.slicer (.payload header r.chunk r.crc), r.packet, r.lastIndex⟩
  | checksum {r : Registers} {header : FrameHeader} (hmode : r.mode = .checksum)
      (hclear : r.search = .clear) (hheader : r.header = some header) :
      Shows d r ⟨.extract r.slicer (.checksum header r.chunk r.crc), r.packet, r.lastIndex⟩

variable {d : Demodulator} {r : Registers} {σ : State} {slicer : Slicer} {stage : Stage}
variable {p : List UInt8} {i : Option UInt8}

theorem Shows.mode_eq (h : d.Shows r σ) : r.mode = σ.mode := by
  cases h <;> assumption

theorem shows_start (d : Demodulator) (hmode : r.mode = .search) (hclear : r.search = .clear) :
    d.Shows r ⟨.search .start, r.packet, r.lastIndex⟩ := by
  have hsound : r.search.Sound d.filter := by
    rw [hclear]
    exact SearchRegisters.sound_of_none rfl rfl
  have hnone : r.search.settled d.filter = none := by
    rw [hclear]
    exact ite_self _
  have hshows := Shows.search hmode hsound hnone
  rwa [hclear] at hshows

theorem shows_new (d : Demodulator) : d.Shows .new .initial := shows_start d rfl rfl

theorem shows_abortPacket (d : Demodulator) (r : Registers) : d.Shows r.abortPacket .initial :=
  shows_start d rfl rfl

theorem Shows.slice (h : d.Shows r ⟨.extract slicer stage, p, i⟩) (slicer' : Slicer) :
    d.Shows { r with slicer := slicer' } ⟨.extract slicer' stage, p, i⟩ := by
  cases h with
  | header hmode hclear hbytes => exact .header hmode hclear hbytes
  | payload hmode hclear hheader => exact .payload hmode hclear hheader
  | checksum hmode hclear hheader => exact .checksum hmode hclear hheader

inductive Answers (d : Demodulator) :
    Registers × Except DecodeError (List Event) → Except DecodeError (State × List Report) → Prop
  | ok {r : Registers} {es : List Event} {σ : State} {rs : List Report} (hshows : d.Shows r σ)
      (hevents : events rs = es) : Answers d (r, .ok es) (.ok (σ, rs))
  | error {r : Registers} {e : DecodeError} : Answers d (r, .error e) (.error e)

theorem answers_header {first : Option UInt8} (hmode : r.mode = .header) (hclear : r.search = .clear)
    (hbytes : r.headerBytes = first.toList) (b : UInt8) (phase : Phase) :
    d.Answers (receiveHeader r b)
      (d.receive ⟨phase, r.packet, r.lastIndex⟩ r.slicer b (.header first)) := by
  cases first with
  | none =>
    simp only [receiveHeader, hbytes]
    exact .ok (.header hmode hclear rfl) rfl
  | some first =>
    simp only [receiveHeader, hbytes, Option.toList_some, List.singleton_append, receive, bind,
      Except.bind]
    cases hparse : FrameHeader.parse first b with
    | error e => exact .error
    | ok header =>
      dsimp only
      cases hfollows : follows r.lastIndex header.index with
      | error e => exact .error
      | ok _ => exact .ok (.payload rfl hclear rfl) (by split <;> rfl)

theorem answers_payload {header : FrameHeader} (hmode : r.mode = .payload)
    (hclear : r.search = .clear) (hheader : r.header = some header) (b : UInt8) (phase : Phase) :
    d.Answers (d.receivePayload r b)
      (d.receive ⟨phase, r.packet, r.lastIndex⟩ r.slicer b (.payload header r.chunk r.crc)) := by
  simp only [receivePayload, receive, hheader, Option.map_some, Option.getD_some]
  split
  · exact .ok (.checksum rfl hclear rfl) rfl
  · exact .ok (.payload hmode hclear rfl) rfl

theorem answers_checksum {header : FrameHeader} (hclear : r.search = .clear)
    (hheader : r.header = some header) (b : UInt8) (phase : Phase) :
    d.Answers (receiveChecksum r b)
      (d.receive ⟨phase, r.packet, r.lastIndex⟩ r.slicer b (.checksum header r.chunk r.crc)) := by
  simp only [receiveChecksum, receive, hheader]
  split
  · exact .error
  · split
    · exact .ok (shows_start d rfl hclear) rfl
    · exact .ok (shows_start d rfl hclear) rfl

theorem answers_receiveByte (h : d.Shows r ⟨.extract r.slicer stage, p, i⟩) (b : UInt8)
    (phase : Phase) :
    d.Answers (d.receiveByte r b) (d.receive ⟨phase, p, i⟩ r.slicer b stage) := by
  cases h with
  | header hmode hclear hbytes =>
    rw [receiveByte, hmode]
    exact answers_header hmode hclear hbytes b phase
  | payload hmode hclear hheader =>
    rw [receiveByte, hmode]
    exact answers_payload hmode hclear hheader b phase
  | checksum hmode hclear hheader =>
    rw [receiveByte, hmode]
    exact answers_checksum hclear hheader b phase

/-- What a sample does to registers and to the state that they show: it is noted, or it starts a
frame. -/
inductive Mirrors (d : Demodulator) (r : Registers) (σ : State) (s : Sample) : Prop
  | noted (hevents : events (d.observe σ s).2 = (d.take r s).events)
      (hreplay : (d.take r s).replay = []) (hnone : (d.observe σ s).1.settled d.filter = none)
      (hshows : d.Shows (d.take r s).registers (d.observe σ s).1)
  | locked (c : Candidate) (hsettled : (d.observe σ s).1.settled d.filter = some c)
      (hlength : c.since.length ≤ d.filter.span + 1) (hevents : (d.take r s).events = [])
      (hreplay : (d.take r s).replay = (lock (d.observe σ s).1 c).2.2)
      (hshows : d.Shows (d.take r s).registers (lock (d.observe σ s).1 c).1)

theorem take_of_settled_eq_none {s : Sample} (hmode : r.mode = .search)
    (h : (r.search.push d.filter d.threshold s).settled d.filter = none) :
    d.take r s = ⟨{ r with search := r.search.push d.filter d.threshold s }, [], []⟩ := by
  simp only [take, if_pos hmode, detect, h]

theorem take_of_settled_eq_some {s : Sample} {c : Peak} (hmode : r.mode = .search)
    (h : (r.search.push d.filter d.threshold s).settled d.filter = some c) :
    d.take r s =
      ⟨(Registers.startExtraction { r with search := r.search.push d.filter d.threshold s } c).1, [],
        (Registers.startExtraction { r with search := r.search.push d.filter d.threshold s } c).2⟩ := by
  simp only [take, if_pos hmode, detect, h]

theorem take_of_ok {r' : Registers} {es : List Event} {s : Sample} (hmode : r.mode ≠ .search)
    (h : d.extract r s = (r', .ok es)) : d.take r s = ⟨r', es, []⟩ := by
  rw [take, if_neg hmode, h]

theorem take_of_error {r' : Registers} {e : DecodeError} {s : Sample} (hmode : r.mode ≠ .search)
    (h : d.extract r s = (r', .error e)) : d.take r s = ⟨r'.abortPacket, [.error e], []⟩ := by
  rw [take, if_neg hmode, h]

theorem lock_pending (r : Registers) (c : Peak) (phase : Phase) :
    (lock ⟨phase, r.packet, r.lastIndex⟩ (r.search.pending c)).1 =
        ⟨.extract (r.startExtraction c).1.slicer (.header none), r.packet, r.lastIndex⟩ ∧
      (lock ⟨phase, r.packet, r.lastIndex⟩ (r.search.pending c)).2.2 = (r.startExtraction c).2 := by
  unfold lock Registers.startExtraction
  simp only [SearchRegisters.pending, List.reverse_reverse]
  exact ⟨rfl, rfl⟩

theorem mirrors_search (hmode : r.mode = .search) (hsound : r.search.Sound d.filter)
    (hnone : r.search.settled d.filter = none) (s : Sample) :
    d.Mirrors r ⟨.search r.search.detector, r.packet, r.lastIndex⟩ s := by
  have hsound' := hsound.push d.threshold hnone s
  have hobserved : (d.observe ⟨.search r.search.detector, r.packet, r.lastIndex⟩ s).1 =
      ⟨.search (r.search.push d.filter d.threshold s).detector, r.packet, r.lastIndex⟩ := by
    rw [observe_search, SearchRegisters.detector_push hsound.best_eq]
  have hevents : events (d.observe ⟨.search r.search.detector, r.packet, r.lastIndex⟩ s).2 = [] := by
    rw [observe_search]
    cases (r.search.detector.push d.filter d.threshold s).2 <;> rfl
  have hsettled := hsound'.settled_detector
  cases hc : (r.search.push d.filter d.threshold s).settled d.filter with
  | none =>
    rw [hc, Option.map_none] at hsettled
    refine .noted ?_ ?_ ?_ ?_
    · rw [take_of_settled_eq_none hmode hc]
      exact hevents
    · rw [take_of_settled_eq_none hmode hc]
    · rw [hobserved]
      exact hsettled
    · rw [take_of_settled_eq_none hmode hc, hobserved]
      exact .search hmode hsound' hc
  | some c =>
    rw [hc, Option.map_some] at hsettled
    obtain ⟨hlocked, hreplay⟩ := lock_pending
      { r with search := r.search.push d.filter d.threshold s } c
      (.search (r.search.push d.filter d.threshold s).detector)
    refine .locked ((r.search.push d.filter d.threshold s).pending c) ?_ ?_ ?_ ?_ ?_
    · rw [hobserved]
      exact hsettled
    · rw [SearchRegisters.pending, List.length_reverse]
      exact hsound'.length_kept_le hc
    · rw [take_of_settled_eq_some hmode hc]
    · rw [take_of_settled_eq_some hmode hc, hobserved]
      exact hreplay.symm
    · rw [take_of_settled_eq_some hmode hc, hobserved]
      refine Eq.subst hlocked.symm ?_
      exact .header rfl rfl rfl

theorem Shows.reads (h : d.Shows r ⟨.extract slicer stage, p, i⟩) :
    r.mode ≠ .search ∧ r.slicer = slicer ∧
      (if r.mode = .header then d.headerSize else d.size) = d.sizeAt stage := by
  cases h <;> rename_i hmode _ _ <;> simp [hmode, sizeAt]

theorem mirrors_extract (h : d.Shows r ⟨.extract slicer stage, p, i⟩) (s : Sample) :
    d.Mirrors r ⟨.extract slicer stage, p, i⟩ s := by
  obtain ⟨hmode, rfl, hsize⟩ := h.reads
  have hnone : (d.observe ⟨.extract r.slicer stage, p, i⟩ s).1.settled d.filter = none :=
    settled_eq_none_of_phase ((phase_observe_extract r.slicer stage s).imp_left
      fun ⟨slicer', stage', hphase⟩ ↦ ⟨slicer', stage', hphase⟩)
  obtain ⟨⟨slicer', out⟩, hpush⟩ : ∃ pushed, r.slicer.push (d.sizeAt stage) s = pushed := ⟨_, rfl⟩
  cases out with
  | none =>
    have hobserve := observe_of_push_none (p := p) (i := i) hpush
    have hextract : d.extract r s = ({ r with slicer := slicer' }, .ok []) := by
      rw [extract, hsize, hpush]
    refine .noted ?_ ?_ hnone ?_ <;> rw [take_of_ok hmode hextract]
    · rw [hobserve]
      rfl
    · rw [hobserve]
      exact h.slice slicer'
  | some codeword =>
    have hobserve := observe_of_push_some (p := p) (i := i) hpush
    unfold symbol at hobserve
    cases hdecode : LineCode.decode codeword with
    | none =>
      have hextract : d.extract r s =
          ({ r with slicer := slicer' }, .error (.invalidSymbol codeword)) := by
        rw [extract, hsize, hpush]
        simp only [hdecode]
      simp only [hdecode] at hobserve
      refine .noted ?_ ?_ hnone ?_ <;> rw [take_of_error hmode hextract]
      · rw [hobserve]
        rfl
      · rw [hobserve]
        exact shows_abortPacket d _
    | some b =>
      have hextract : d.extract r s = d.receiveByte { r with slicer := slicer' } b := by
        rw [extract, hsize, hpush]
        simp only [hdecode]
      simp only [hdecode] at hobserve
      have hanswers := answers_receiveByte (h.slice slicer') b (.extract r.slicer stage)
      dsimp only at hanswers
      generalize d.receiveByte { r with slicer := slicer' } b = answer at hextract hanswers
      generalize d.receive ⟨.extract r.slicer stage, p, i⟩ slicer' b stage = received
        at hobserve hanswers
      cases hanswers with
      | ok hshows hevents =>
        refine .noted ?_ ?_ hnone ?_ <;> rw [take_of_ok hmode hextract]
        · rw [hobserve]
          exact hevents
        · rw [hobserve]
          exact hshows
      | error =>
        refine .noted ?_ ?_ hnone ?_ <;> rw [take_of_error hmode hextract]
        · rw [hobserve]
          rfl
        · rw [hobserve]
          exact shows_abortPacket d _

theorem Shows.mirrors (h : d.Shows r σ) (s : Sample) : d.Mirrors r σ s := by
  cases h with
  | search hmode hsound hnone => exact mirrors_search hmode hsound hnone s
  | header hmode hclear hbytes => exact mirrors_extract (.header hmode hclear hbytes) s
  | payload hmode hclear hheader => exact mirrors_extract (.payload hmode hclear hheader) s
  | checksum hmode hclear hheader => exact mirrors_extract (.checksum hmode hclear hheader) s

theorem Shows.process (h : d.Shows r σ) (xs : List Sample) :
    ∃ τ, d.Carries σ xs (d.process r xs).2 τ ∧ d.Shows (d.process r xs).1 τ := by
  -- the samples taken again are the next of the stream for both, so the induction is on the calls
  induction r, xs using process.induct d generalizing σ with
  | case1 r =>
    rw [Demodulator.process]
    exact ⟨σ, .nil, h⟩
  | case2 r s xs t r' es hprocess =>
    rename_i ih
    change d.process (d.take r s).registers ((d.take r s).replay ++ xs) = (r', es) at hprocess
    have hcall : d.process r (s :: xs) = (r', (d.take r s).events ++ es) := by
      rw [Demodulator.process, hprocess]
    rw [hcall]
    cases h.mirrors s with
    | noted hevents hreplay hnone hshows =>
      obtain ⟨τ, hcarries, hτ⟩ := ih hshows
      rw [hprocess] at hcarries hτ
      rw [hreplay, List.nil_append] at hcarries
      refine ⟨τ, ?_, hτ⟩
      have hstep := step_of_settled_eq_none hnone
      rw [← hevents, ← hstep]
      refine .cons ?_
      rw [hstep]
      exact hcarries
    | locked c hsettled hlength hevents hreplay hshows =>
      obtain ⟨τ, hcarries, hτ⟩ := ih hshows
      rw [hprocess] at hcarries hτ
      rw [hreplay] at hcarries
      refine ⟨τ, ?_, hτ⟩
      rw [hevents, List.nil_append]
      exact carries_of_lock hsettled hlength hcarries

theorem Shows.transcript_eq (h : d.Shows r σ) (blocks : List (List Sample)) :
    d.transcript r blocks = d.record σ blocks := by
  induction blocks generalizing r σ with
  | nil => rfl
  | cons block blocks ih =>
    obtain ⟨τ, ⟨hτ, hevents⟩, hshows⟩ := h.process block
    rw [transcript, record]
    dsimp only
    rw [hevents, hτ, hshows.mode_eq, ih hshows]

theorem Reachable.shows (h : d.Reachable r) : ∃ σ, d.Shows r σ := by
  induction h with
  | new => exact ⟨.initial, shows_new d⟩
  | take s _ ih =>
    obtain ⟨σ, hσ⟩ := ih
    cases hσ.mirrors s with
    | noted _ _ _ hshows => exact ⟨_, hshows⟩
    | locked _ _ _ _ _ hshows => exact ⟨_, hshows⟩
  | @reset r _ _ => exact ⟨.initial, shows_abortPacket d r⟩

theorem eq_initial_of_receive {τ : State} {rs : List Report} {b : UInt8}
    (h : d.receive σ slicer b stage = .ok (τ, rs)) (hevents : events rs ≠ []) : τ = .initial := by
  have hphase : τ.phase = .search .start := (phase_receive h).resolve_left
    fun ⟨_, hphase⟩ ↦ hevents (events_receive h hphase)
  cases stage with
  | header first =>
    cases first with
    | none =>
      cases h
      exact absurd rfl hevents
    | some first =>
      simp only [receive, bind, Except.bind] at h
      split at h
      · cases h
      · split at h <;> cases h
        cases hphase
  | payload header chunk crc =>
    cases h
    cases hphase
  | checksum header chunk crc =>
    simp only [receive] at h
    split at h
    · cases h
    · split at h <;> cases h
      · rfl
      · exact absurd rfl hevents

theorem eq_initial_of_events {s : Sample} (h : events (d.observe σ s).2 ≠ []) :
    (d.observe σ s).1 = .initial := by
  obtain ⟨phase, p, i⟩ := σ
  cases phase with
  | search detector =>
    refine absurd ?_ h
    rw [observe_search]
    cases (detector.push d.filter d.threshold s).2 <;> rfl
  | extract slicer stage =>
    have hobserves := d.observes_extract slicer stage p i s
    generalize d.observe ⟨.extract slicer stage, p, i⟩ s = observed at h hobserves ⊢
    cases hobserves with
    | sum => exact absurd rfl h
    | noByte => rfl
    | refused => rfl
    | byte _ _ hreceive => exact eq_initial_of_receive hreceive h

theorem Reachable.process (h : d.Reachable r) (xs : List Sample) :
    d.Reachable (d.process r xs).1 := by
  induction r, xs using process.induct d with
  | case1 r =>
    rw [Demodulator.process]
    exact h
  | case2 r s xs t r' es hprocess =>
    rename_i ih
    rw [Demodulator.process]
    exact ih (h.take s)

def taken (d : Demodulator) (r : Registers) (xs : List Sample) : Registers :=
  xs.foldl (fun r s ↦ (d.take r s).registers) r

theorem Reachable.taken (h : d.Reachable r) (xs : List Sample) : d.Reachable (d.taken r xs) := by
  induction xs generalizing r with
  | nil => exact h
  | cons s xs ih => exact ih (h.take s)

end Demodulator

open Demodulator

/-- Registers that an error, a packet or a reset has left go on as new ones do, which say what the
demodulator says that keeps no others. A sample that completes a packet or raises an error leaves
nothing to be taken again but what was left of it before. -/
theorem transcript_recovered (d : Demodulator) {r : Registers} (hr : d.Reachable r) :
    (∀ s, (d.take r s).events ≠ [] → (d.take r s).replay = [] ∧
      ∀ blocks, d.transcript (d.take r s).registers blocks = d.transcript .new blocks) ∧
    (∀ blocks, d.transcript r.reset blocks = d.transcript .new blocks) ∧
    ∀ blocks, d.transcript .new blocks = d.record .initial blocks := by
  have hnew := (shows_new d).transcript_eq
  refine ⟨fun s hevents ↦ ?_, fun blocks ↦ ?_, hnew⟩
  · obtain ⟨σ, hσ⟩ := hr.shows
    cases hσ.mirrors s with
    | noted hsame hreplay hnone hshows =>
      rw [eq_initial_of_events (by rwa [hsame])] at hshows
      exact ⟨hreplay, fun blocks ↦ (hshows.transcript_eq blocks).trans (hnew blocks).symm⟩
    | locked c hsettled hlength hnothing hreplay hshows => exact absurd hnothing hevents
  · exact ((shows_abortPacket d r).transcript_eq blocks).trans (hnew blocks).symm

def Config.Phy.terse : Config.Phy where
  preamble := { ramp := 3 }
  carrier := { size := 1, headerSize := 1 }

theorem transcript_recovered_terse :
    let d := Config.Phy.terse.demodulator
    let frame := Config.Phy.terse.modulator.frame (.ofSize 1 true 0) [7]
    let packet := d.take (d.taken .new (frame.take 48 ++ (frame.take 63).drop 24)) (frame.getD 63 0)
    let failed := d.take (d.taken .new (frame.take 24 ++ List.replicate 33 0)) 0
    packet.events = [.packet [7]] ∧ failed.events = [.error (.invalidSymbol 0)] ∧
      ∀ blocks, d.transcript packet.registers blocks = d.transcript .new blocks ∧
        d.transcript failed.registers blocks = d.transcript .new blocks := by
  intro d frame packet failed
  have hpacket : packet.events = [.packet [7]] := by decide +kernel
  have hfailed : failed.events = [.error (.invalidSymbol 0)] := by decide +kernel
  obtain ⟨hrecovered, -, -⟩ := transcript_recovered d
    (Reachable.new.taken (frame.take 48 ++ (frame.take 63).drop 24))
  obtain ⟨hrecovered', -, -⟩ := transcript_recovered d
    (Reachable.new.taken (frame.take 24 ++ List.replicate 33 0))
  refine ⟨hpacket, hfailed, fun blocks ↦ ⟨(hrecovered _ ?_).2 blocks, (hrecovered' _ ?_).2 blocks⟩⟩
  · rw [hpacket]
    exact List.cons_ne_nil _ _
  · rw [hfailed]
    exact List.cons_ne_nil _ _

end SoundLink
