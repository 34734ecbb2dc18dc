import SoundLink.Proofs.LinkRoundTrip

namespace SoundLink

open Demodulator

namespace Demodulator

variable {d : Demodulator} {σ : State} {s : Sample} {k k' : ℕ} {p : List UInt8} {i : Option UInt8}

def after (d : Demodulator) (σ : State) (xs : List Sample) : State := (d.run σ xs).1

@[simp] theorem after_nil (σ : State) : d.after σ [] = σ := rfl

theorem after_cons (σ : State) (s : Sample) (xs : List Sample) :
    d.after σ (s :: xs) = d.after (d.step σ s).1 xs := by
  rw [after, run_cons]
  rfl

theorem after_append (σ : State) (xs ys : List Sample) :
    d.after σ (xs ++ ys) = d.after (d.after σ xs) ys := by
  induction xs generalizing σ with
  | nil => rfl
  | cons s xs ih => rw [List.cons_append, after_cons, ih, after_cons]

theorem Carries.after_eq {τ : State} {xs : List Sample} {es : List Event}
    (h : d.Carries σ xs es τ) :
    d.after σ xs = τ := h.1

def Silent (k : ℕ) (past : List Sample) : Prop := ∀ x ∈ past.take k, x = 0

theorem silent_zero (past : List Sample) : Silent 0 past := by simp [Silent]

theorem Silent.cons {past : List Sample} (h : Silent k past) : Silent (k + 1) (0 :: past) := by
  rw [Silent, List.take_succ_cons]
  exact List.forall_mem_cons.2 ⟨rfl, h⟩

theorem Silent.mono {past : List Sample} (h : Silent k past) (hk : k' ≤ k) : Silent k' past :=
  fun x hx ↦ h x (List.take_subset_take_left past hk hx)

theorem Silent.take {past : List Sample} (h : Silent k past) (j : ℕ) : Silent k (past.take j) := by
  intro x hx
  rw [List.take_take, min_comm, ← List.take_take] at hx
  exact h x (List.mem_of_mem_take hx)

theorem Silent.take_eq {past : List Sample} (h : Silent k past) :
    past.take k = List.replicate (min k past.length) 0 := by
  rw [← List.length_take]
  exact List.eq_replicate_of_mem h

theorem Silent.push {past : List Sample} (h : Silent k past) (hk : k' = 0 ∨ k' = k + 1 ∧ s = 0) :
    Silent k' (s :: past) := by
  obtain rfl | ⟨rfl, rfl⟩ := hk
  · exact silent_zero _
  · exact h.cons

/-- A search whose newest `k` samples are silent. Its candidate, if there is one, is not from the
silence that fills the window. -/
def Fading (f : MatchedFilter) (k : ℕ) (det : Detector) : Prop :=
  ∃ past, det.Recalls f past ∧ Silent k past ∧ ∀ c, det.candidate = some c →
    f.span ≤ past.length ∧ 0 < c.peak.units ∧ c.since.length = c.distance + 1 ∧ Silent k c.since ∧
      c.distance ≤ f.span ∧ k < c.distance + f.span

def Settling (d : Demodulator) (k : ℕ) (σ : State) : Prop :=
  match σ.phase with
  | .search det => Fading d.filter k det ∧ det.settled d.filter = none
  | .extract .. => True

theorem settling_of_young {past : List Sample} (h : d.Young past σ) (hpast : Silent k past) :
    d.Settling k σ := by
  obtain ⟨phase, p, i⟩ := σ
  cases phase with
  | extract => trivial
  | search det =>
    obtain ⟨hnone, j, -, hrec⟩ := h
    refine ⟨⟨past.take j, hrec, hpast.take j, by simp [hnone]⟩, ?_⟩
    rw [Detector.settled, hnone]
    rfl

theorem settling_of_start (h : σ.phase = .search .start) : d.Settling k σ := by
  obtain ⟨phase, p, i⟩ := σ
  obtain rfl : phase = .search .start := h
  exact ⟨⟨[], Detector.recalls_start _, by simp [Silent], by simp [Detector.start]⟩, rfl⟩

end Demodulator

namespace CleanLink

variable {n : ℕ} {A : Sample} {m : Modulator} {d : Demodulator} (h : CleanLink n A m d)
variable {σ : State} {det : Detector} {s : Sample} {k k' : ℕ}
include h

theorem power_of_silent {past : List Sample} (hpast : Silent k past) (hk : d.filter.span ≤ k) :
    d.filter.power past = 0 := by
  rw [← d.filter.power_take, (hpast.mono hk).take_eq]
  exact h.power_zeros _

theorem fading_push (hd : Fading d.filter k det) (hset : det.settled d.filter = none)
    (hk : k' = 0 ∨ k' = k + 1 ∧ s = 0) :
    Fading d.filter k' (det.push d.filter d.threshold s).1 := by
  obtain ⟨past, hrec, hpast, hcand⟩ := hd
  have hspan := h.span_eq
  have hlen := h.le_length
  refine ⟨s :: past, hrec.push d.threshold s, hpast.push hk, ?_⟩
  obtain ⟨hshort, hc⟩ | ⟨hfull, hbest, -, hc⟩ | ⟨hfull, -, hc⟩ := hrec.push_cases d.threshold s
  · rw [hc]
    intro c hc
    have := (hcand c hc).1
    omega
  -- a new candidate: its power is positive, which a window of silence would not give
  · have hpower : 0 < (d.filter.power (s :: past)).units := by
      rw [Fixed.lt_iff, Detector.best] at hbest
      cases hc : det.candidate with
      | none => simpa [hc] using hbest
      | some c =>
        rw [hc, Option.map_some, Option.getD_some] at hbest
        exact (hcand c hc).2.1.trans hbest
    rw [hc]
    rintro c ⟨⟩
    refine ⟨hfull, hpower, rfl, ?_, Nat.zero_le _, ?_⟩
    · obtain rfl | ⟨rfl, rfl⟩ := hk
      · exact silent_zero _
      · simp [Silent, Candidate.start]
    · obtain rfl | ⟨rfl, rfl⟩ := hk
      · exact Nat.lt_of_lt_of_le (by omega) (Nat.le_add_left _ _)
      · by_contra hle
        rw [h.power_of_silent hpast.cons (by simp [Candidate.start] at hle; omega)] at hpower
        exact absurd hpower (lt_irrefl _)
  · rw [hc]
    intro c' hc'
    obtain ⟨c, hc, rfl⟩ := Option.map_eq_some_iff.1 hc'
    obtain ⟨-, hpeak, hsince, hsilent, -, hdist⟩ := hcand c hc
    have hlt : c.distance < d.filter.span := by
      rw [Detector.settled, hc, Option.filter_eq_none_iff] at hset
      simpa using hset c rfl
    refine ⟨hfull, hpeak, by simp [Candidate.follow, hsince], hsilent.push hk, hlt, ?_⟩
    show k' < c.distance + 1 + d.filter.span
    omega

theorem settling_step (hσ : d.Settling k σ) (hk : k' = 0 ∨ k' = k + 1 ∧ s = 0) :
    d.Settling k' (d.step σ s).1 := by
  obtain ⟨phase, p, i⟩ := σ
  cases phase with
  | extract r stage =>
    have hphase := phase_observe_extract (d := d) (p := p) (i := i) r stage s
    rw [step_of_settled_eq_none (settled_eq_none_of_phase hphase)]
    obtain ⟨r', stage', h⟩ | h := hphase
    · rw [Settling, h]
      trivial
    · exact settling_of_start h
  | search det =>
    obtain ⟨hd, hset⟩ := hσ
    have hpush := h.fading_push hd hset hk
    cases hnext : (det.push d.filter d.threshold s).1.settled d.filter with
    | none =>
      rw [step_of_settled_eq_none (by rw [observe_search]; exact hnext), observe_search]
      exact ⟨hpush, hnext⟩
    -- the newest of the samples played again are as silent as those of the candidate
    | some c =>
      have hobs : (d.observe ⟨.search det, p, i⟩ s).1.settled d.filter = some c := by
        rw [observe_search]
        exact hnext
      obtain ⟨past, -, -, hcand⟩ := hpush
      obtain ⟨-, -, hsince, hsilent, hdist, -⟩ := hcand c (Option.filter_eq_some_iff.1 hnext).1
      have hlen := length_replay_le (d.observe ⟨.search det, p, i⟩ s).1 c
      rw [step_of_settled_eq_some hobs]
      obtain ⟨he, hyoung⟩ :=
        observeAll_eq_run (d := d) (young_lock (σ := (d.observe ⟨.search det, p, i⟩ s).1) c)
          (show _ + (lock (d.observe ⟨.search det, p, i⟩ s).1 c).2.2.length ≤ _ by
            rw [List.length_nil]
            omega)
      rw [he]
      obtain ⟨j, hreplay⟩ : ∃ j, (lock (d.observe ⟨.search det, p, i⟩ s).1 c).2.2 =
          c.since.reverse.drop j := ⟨_, rfl⟩
      refine settling_of_young hyoung ?_
      rw [hreplay, List.drop_reverse, List.reverse_reverse, List.append_nil]
      exact hsilent.take _

theorem settling_run (hσ : d.Settling k σ) (xs : List Sample) : d.Settling 0 (d.after σ xs) := by
  induction xs generalizing σ k with
  | nil =>
    obtain ⟨phase, p, i⟩ := σ
    cases phase with
    | extract => trivial
    | search det =>
      obtain ⟨⟨past, hrec, -, hcand⟩, hset⟩ := hσ
      refine ⟨⟨past, hrec, silent_zero _, fun c hc ↦ ?_⟩, hset⟩
      obtain ⟨hfull, hpeak, hsince, -, hle, hlt⟩ := hcand c hc
      exact ⟨hfull, hpeak, hsince, silent_zero _, hle, by omega⟩
  | cons s xs ih =>
    rw [after_cons]
    exact ih (h.settling_step hσ (.inl rfl))

theorem settling_silence (hσ : d.Settling k σ) (j : ℕ) :
    d.Settling (k + j) (d.after σ (List.replicate j 0)) := by
  induction j generalizing σ k with
  | zero => exact hσ
  | succ j ih =>
    rw [List.replicate_succ, after_cons, Nat.add_comm j, ← Nat.add_assoc]
    exact ih (h.settling_step hσ (.inr ⟨rfl, rfl⟩))

/-- Silence of two preambles outlasts every candidate. -/
theorem quiet_of_settling (hk : 2 * d.filter.span ≤ k) (hσ : d.Settling k σ) :
    d.Quiet σ ∨ ∃ r stage, σ.phase = .extract r stage := by
  obtain ⟨phase, p, i⟩ := σ
  cases phase with
  | extract r stage => exact .inr ⟨r, stage, rfl⟩
  | search det =>
    obtain ⟨⟨past, hrec, hpast, hcand⟩, hset⟩ := hσ
    have hnone : det.candidate = none := by
      by_contra hne
      obtain ⟨c, hc⟩ := Option.ne_none_iff_exists'.1 hne
      obtain ⟨-, -, -, -, -, hlt⟩ := hcand c hc
      rw [Detector.settled, hc, Option.filter_eq_none_iff] at hset
      have := hset c rfl
      simp at this
      omega
    have hspan : d.filter.span ≤ k := by omega
    refine .inl ⟨det, rfl, hnone, past.length, ?_, ?_⟩
    · rw [hrec.samples_eq, (hpast.mono hspan).take_eq, List.take_replicate]
    · rw [hrec.previous_eq, List.length_replicate, h.power_of_silent hpast hspan, h.power_zeros]

end CleanLink

theorem Fixed.lerp_zero (t : Fixed) : Fixed.lerp 0 0 t = 0 := by
  have hmul (b : Fixed) : (0 : Fixed) * b = 0 := by
    apply Fixed.units_inj
    rw [Fixed.units_mul] <;> simp
  rw [Fixed.lerp, hmul, hmul]
  exact Fixed.units_inj (Fixed.units_add (by simp) (by simp))

namespace Slicer

def wait (size : ℕ) (r : Slicer) : ℕ := (9 - r.bits) * size + max 1 (size - r.tick)

theorem wait_le {size : ℕ} (hsize : 0 < size) (r : Slicer) : r.wait size ≤ 10 * size := by
  have hbits : (9 - r.bits) * size ≤ 9 * size := Nat.mul_le_mul_right _ (Nat.sub_le _ _)
  have htick : max 1 (size - r.tick) ≤ size := max_le hsize (Nat.sub_le _ _)
  unfold wait
  omega

def Blank (r : Slicer) : Prop := r.last = 0 ∧ r.sum = 0 ∧ r.codeword = 0

theorem push_zero (size : ℕ) (hsize : 0 < size) (r : Slicer) :
    (∃ r', r.push size 0 = (r', none) ∧ r'.wait size + 1 = r.wait size ∧ r'.phase = r.phase ∧
        (r.Blank → r'.Blank)) ∨
      ∃ code, r.push size 0 = (.start 0 r.phase, some code) ∧ r.wait size = 1 ∧
        (r.Blank → code = 0) := by
  obtain ⟨last, phase, sum, t, code, j⟩ := r
  have hbit : sum + .lerp last (.ofSample 0) phase < 0 ↔
      decide (sum + .lerp last (.ofSample 0) phase < 0) = true := by rw [decide_eq_true_eq]
  have hcode (h : Blank ⟨last, phase, sum, t, code, j⟩) (b : UInt16) :
      (if decide (sum + .lerp last (.ofSample 0) phase < 0) then b else code) = 0 := by
    obtain ⟨rfl, rfl, rfl⟩ := h
    rw [Fixed.ofSample_zero, Fixed.lerp_zero]
    rfl
  have hblank (h : Blank ⟨last, phase, sum, t, code, j⟩) :
      sum + .lerp last (.ofSample 0) phase = 0 := by
    obtain ⟨rfl, rfl, -⟩ := h
    rw [Fixed.ofSample_zero, Fixed.lerp_zero]
    rfl
  by_cases htick : t + 1 < size
  · left
    refine ⟨_, push_of_lt 0 htick, ?_, rfl, fun h ↦ ⟨rfl, hblank h, h.2.2⟩⟩
    simp only [wait]
    omega
  by_cases hbits : j + 1 < LineCode.wordBits
  · left
    refine ⟨_, push_of_bit 0 (not_lt.1 htick) hbit hbits, ?_, rfl, fun h ↦ ⟨rfl, rfl, hcode h _⟩⟩
    rw [LineCode.wordBits] at hbits
    obtain ⟨b, hb⟩ : ∃ b, 9 - j = b + 1 := ⟨8 - j, by omega⟩
    simp only [wait, hb, show 9 - (j + 1) = b by omega, Nat.succ_mul]
    omega
  · right
    refine ⟨_, push_of_word 0 (not_lt.1 htick) hbit (not_lt.1 hbits), ?_, fun h ↦ hcode h _⟩
    rw [LineCode.wordBits] at hbits
    simp only [wait]
    rw [show 9 - j = 0 by omega]
    omega

end Slicer

namespace Demodulator

variable {d : Demodulator} {p : List UInt8} {i : Option UInt8} {stage : Stage} {k : ℕ}

theorem sizeAt_le (d : Demodulator) (stage : Stage) : d.sizeAt stage ≤ max d.size d.headerSize := by
  cases stage with
  | header => exact le_max_right _ _
  | payload => exact le_max_left _ _
  | checksum => exact le_max_left _ _

theorem after_wait (hsize : 0 < d.sizeAt stage) {r : Slicer} (hk : r.wait (d.sizeAt stage) = k) :
    ∃ r' code, (r.Blank → code = 0) ∧ d.after ⟨.extract r stage, p, i⟩ (List.replicate k 0) =
      (d.symbol ⟨.extract r' stage, p, i⟩ (.start 0 r.phase) stage code).1 := by
  induction k generalizing r with
  | zero =>
    have := le_max_left 1 (d.sizeAt stage - r.tick)
    unfold Slicer.wait at hk
    omega
  | succ k ih =>
    rw [List.replicate_succ, after_cons]
    obtain ⟨r', hpush, hwait, hphase, hblank⟩ | ⟨code, hpush, hwait, hcode⟩ :=
      Slicer.push_zero _ hsize r
    · have hobs := observe_of_push_none (p := p) (i := i) hpush
      rw [step_of_settled_eq_none (by rw [hobs]; rfl), hobs, ← hphase]
      obtain ⟨q, code, hcode, hafter⟩ := ih (r := r') (by omega)
      exact ⟨q, code, fun h ↦ hcode (hblank h), hafter⟩
    · have hobs := observe_of_push_some (p := p) (i := i) hpush
      obtain rfl : k = 0 := by omega
      have hphase := phase_observe_extract (d := d) (p := p) (i := i) r stage 0
      refine ⟨r, code, hcode, ?_⟩
      rw [step_of_settled_eq_none (settled_eq_none_of_phase hphase), hobs, List.replicate_zero,
        after_nil]

end Demodulator

namespace CleanLink

variable {n : ℕ} {A : Sample} {m : Modulator} {d : Demodulator} (h : CleanLink n A m d)
variable {σ : State} {k : ℕ}
include h

theorem sizeAt_pos (stage : Stage) : 0 < d.sizeAt stage := by
  have hheader : 0 < d.headerSize := h.headerSize_eq ▸ h.headerSize_pos
  have hsize : 0 < d.size := h.size_eq ▸ h.size_pos
  cases stage <;> assumption

theorem quiet_silence (hσ : d.Quiet σ) (k : ℕ) : d.Quiet (d.after σ (List.replicate k 0)) := by
  obtain ⟨τ, hτ, -, -, hrun⟩ := h.quiet_zeros k hσ
  rwa [hrun.after_eq]

theorem quiet_of_blank {r : Slicer} {stage : Stage} (hσ : σ.phase = .extract r stage) (hr : r.Blank)
    (hk : 10 * max d.size d.headerSize ≤ k) : d.Quiet (d.after σ (List.replicate k 0)) := by
  obtain ⟨phase, p, i⟩ := σ
  obtain rfl : phase = .extract r stage := hσ
  have hpos := h.sizeAt_pos stage
  have hle := d.sizeAt_le stage
  have hwait := Slicer.wait_le hpos r
  obtain ⟨r', code, hcode, hafter⟩ := after_wait (p := p) (i := i) hpos (r := r) rfl
  obtain ⟨j, rfl⟩ : ∃ j, k = r.wait (d.sizeAt stage) + j := Nat.exists_eq_add_of_le (by omega)
  rw [List.replicate_add, after_append, hafter, hcode hr]
  rw [symbol_of_decode_eq_none LineCode.decode_zero]
  exact h.quiet_silence (quiet_of_start rfl) j

theorem quiet_of_extract {r : Slicer} {stage : Stage} (hσ : σ.phase = .extract r stage)
    (hk : 20 * max d.size d.headerSize ≤ k) : d.Quiet (d.after σ (List.replicate k 0)) := by
  obtain ⟨phase, p, i⟩ := σ
  obtain rfl : phase = .extract r stage := hσ
  have hpos := h.sizeAt_pos stage
  have hle := d.sizeAt_le stage
  have hwait := Slicer.wait_le hpos r
  obtain ⟨r', code, -, hafter⟩ := after_wait (p := p) (i := i) hpos (r := r) rfl
  obtain ⟨j, rfl⟩ : ∃ j, k = r.wait (d.sizeAt stage) + j := Nat.exists_eq_add_of_le (by omega)
  rw [List.replicate_add, after_append, hafter]
  -- the first codeword may hold bits from before the silence and be valid, the next one cannot
  obtain ⟨stage', h'⟩ | h' :=
    phase_symbol (d := d) ⟨.extract r' stage, p, i⟩ (.start 0 r.phase) stage code
  · exact h.quiet_of_blank h' ⟨rfl, rfl, rfl⟩ (by omega)
  · exact h.quiet_silence (quiet_of_start h') j

/-- Whatever has been heard, enough silence leaves a quiet search. -/
theorem quiet_after_silence (xs : List Sample)
    (hk : 2 * Preamble.length n + 20 * max d.size d.headerSize ≤ k) :
    d.Quiet (d.after .initial (xs ++ List.replicate k 0)) := by
  have hstart : d.Settling 0 .initial := settling_of_start rfl
  have hspan := h.span_eq
  obtain ⟨j, rfl⟩ : ∃ j, k = 2 * Preamble.length n + j := Nat.exists_eq_add_of_le (by omega)
  have hsettling := h.settling_silence (h.settling_run hstart xs) (2 * Preamble.length n)
  rw [List.replicate_add, ← List.append_assoc, after_append, after_append]
  obtain hquiet | ⟨r, stage, hr⟩ := h.quiet_of_settling (by omega) hsettling
  · exact h.quiet_silence hquiet j
  · exact h.quiet_of_extract hr (by omega)

end CleanLink

/-- After any samples and enough silence, a packet is delivered as on a fresh link and alone. -/
theorem events_run_after_noise (p : Config.Phy) (hp : p.Clean) (noise : List Sample) (silence : ℕ)
    (bytes : List UInt8)
    (hsilence : 4 * Preamble.length p.preamble.ramp.toNat +
      40 * max p.carrier.size.toNat p.carrier.headerSize.toNat ≤ silence)
    (hne : bytes ≠ []) (hmax : bytes.length ≤ maxFrames * p.bytesPerFrame.toNat) :
    ∃ sound, p.modulator.modulate bytes = .ok sound ∧
      let σ := (p.demodulator.run .initial (noise ++ List.replicate silence 0)).1
      let rest := sound ++ List.replicate (Preamble.length p.preamble.ramp.toNat + 1) 0
      events (p.demodulator.run σ rest).2 = [.packet bytes] ∧
        ∃ det, (p.demodulator.run σ rest).1.phase = .search det := by
  have h := hp.cleanLink
  have hσ := h.quiet_after_silence (k := silence) noise (by
    change 2 * _ + 20 * max p.carrier.size.toNat p.carrier.headerSize.toNat ≤ _
    omega)
  obtain ⟨υ, hυ, hrun⟩ := h.carries_packet hσ hne hmax (fun s hs ↦ h.abs_of_mem_zeros hs)
    (show _ ≤ (List.replicate (Preamble.length p.preamble.ramp.toNat + 1) 0).length by
      rw [List.length_replicate]
      exact Nat.le_succ _)
  obtain ⟨τ, ⟨det, hdet, -⟩, -, -, hzeros⟩ :=
    h.quiet_zeros (Preamble.length p.preamble.ramp.toNat + 1) hυ
  obtain ⟨hstate, hevents⟩ := hrun _ τ hzeros
  exact ⟨_, Modulator.modulate_eq hp.bytesPerFrame_pos hmax, hevents, det,
    by rw [← hdet, ← hstate]; rfl⟩

theorem events_run_after_noise_default :
    ∃ sound, ({} : Config.Phy).modulator.modulate [9] = .ok sound ∧
      let σ := (({} : Config.Phy).demodulator.run .initial
        ([1000, -5, 2147483647] ++ List.replicate 280 0)).1
      let rest := sound ++
        List.replicate (Preamble.length ({} : Config.Phy).preamble.ramp.toNat + 1) 0
      events (({} : Config.Phy).demodulator.run σ rest).2 = [.packet [9]] ∧
        ∃ det, (({} : Config.Phy).demodulator.run σ rest).1.phase = .search det :=
  events_run_after_noise {} clean_default [1000, -5, 2147483647] 280 [9] (by decide) (by decide)
    (by decide)

end SoundLink
