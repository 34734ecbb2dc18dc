import SoundLink.Proofs.Acknowledgement
import SoundLink.Proofs.Validity

namespace SoundLink

namespace Outcome

variable {ε α β : Type} {e : Fault}

theorem bind_eq_fault {x : Outcome ε α} {f : α → Outcome ε β} :
    (x >>= f) = .fault e ↔ x = .fault e ∨ ∃ a, x = .ok a ∧ f a = .fault e := by
  cases x <;> simp [bind, Except.bind, fault]

theorem bind_unit_eq_fault {x : Outcome ε Unit} {f : Unit → Outcome ε β} :
    (x >>= f) = .fault e ↔ x = .fault e ∨ x = .ok () ∧ f () = .fault e := by
  rw [bind_eq_fault]
  exact or_congr_right ⟨fun ⟨_, h⟩ ↦ h, fun h ↦ ⟨(), h⟩⟩

end Outcome

namespace Config

variable {field : String} {flaw : Flaw} {e : Fault}

structure Device.Valid (d : Device) : Prop where
  clientName_ne : d.clientName ≠ ""
  sampleRate_ne : d.sampleRate ≠ 0

structure Mac.Valid (m : Mac) : Prop where
  address_le : m.address.toNat ≤ 7
  bytesPerFrame_ne : m.bytesPerFrame ≠ 0
  ackTimeout_ne : m.ackTimeout ≠ 0
  outputBuffer_ne : m.outputBuffer ≠ 0
  backoff : ∀ lo hi, m.backoff = .random lo hi → lo ≤ hi

theorem Device.check_eq_ok_iff {d : Device} : d.check = .ok () ↔ d.Valid := by
  simp only [Device.check, Outcome.bind_unit_eq_ok, require_eq_ok, decide_eq_true_eq]
  exact ⟨fun ⟨hname, hrate⟩ ↦ ⟨hname, hrate⟩, fun h ↦ ⟨h.clientName_ne, h.sampleRate_ne⟩⟩

theorem Backoff.check_eq_ok_iff {b : Backoff} :
    b.check = .ok () ↔ ∀ lo hi, b = .random lo hi → lo ≤ hi := by
  cases b with
  | random lo hi => simp [Backoff.check, require_eq_ok]
  | fixed delay => simp [Backoff.check]

theorem Mac.check_eq_ok_iff {m : Mac} : m.check = .ok () ↔ m.Valid := by
  simp only [Mac.check, Outcome.bind_unit_eq_ok, require_eq_ok, decide_eq_true_eq,
    Backoff.check_eq_ok_iff]
  constructor
  · rintro ⟨haddress, hbytes, htimeout, hbuffer, hbackoff⟩
    exact ⟨haddress, hbytes, htimeout, hbuffer, hbackoff⟩
  · intro h
    exact ⟨h.address_le, h.bytesPerFrame_ne, h.ackTimeout_ne, h.outputBuffer_ne, h.backoff⟩

structure Valid (c : Config) : Prop where
  device : c.device.Valid
  phy : c.phy.Valid
  mac : c.mac.Valid
  headroom : c.mac.bytesPerFrame.toNat + 2 ≤ c.phy.bytesPerFrame.toNat

theorem check_eq_ok_iff {c : Config} : c.check = .ok () ↔ c.Valid := by
  simp only [check, Outcome.bind_eq_ok (α := ℕ), Outcome.bind_unit_eq_ok, Device.check_eq_ok_iff,
    Phy.check_eq_ok_iff, Mac.check_eq_ok_iff, counted_eq_ok, require_eq_ok, decide_eq_true_eq]
  constructor
  · rintro ⟨hdevice, hphy, hmac, _, ⟨-, rfl⟩, hroom⟩
    exact ⟨hdevice, hphy, hmac, hroom⟩
  · intro h
    have hle := h.phy.bytesPerFrame_le
    have hroom := h.headroom
    exact ⟨h.device, h.phy, h.mac, _, ⟨by simp only [macHeaderBytes]; omega, rfl⟩, hroom⟩

theorem require_ne_fault {holds : Bool} : require holds field flaw ≠ .fault e := by
  cases holds <;> nofun

theorem counted_eq_fault {n : ℕ} : counted n = .fault e ↔ 2 ^ 64 ≤ n ∧ e = .overflow := by
  by_cases h : n < UInt64.size
  · simp only [counted, if_pos h, Outcome.fault, reduceCtorEq, false_iff]
    exact fun hle ↦ absurd h (not_lt.2 hle.1)
  · simp only [counted, if_neg h, Outcome.fault, Except.error.injEq, Failure.fault.injEq]
    exact ⟨fun he ↦ ⟨not_lt.1 h, he.symm⟩, fun he ↦ he.2.symm⟩

theorem Device.check_ne_fault {d : Device} : d.check ≠ .fault e := by
  simp [Device.check, Outcome.bind_unit_eq_fault, require_ne_fault]

theorem Mac.check_ne_fault {m : Mac} : m.check ≠ .fault e := by
  have hbackoff : m.backoff.check ≠ .fault e := by
    cases m.backoff with
    | random lo hi => exact require_ne_fault
    | fixed delay => nofun
  simp [Mac.check, Outcome.bind_unit_eq_fault, require_ne_fault, hbackoff]

theorem Preamble.check_eq_fault {p : Preamble} :
    p.check = .fault e ↔ 2 ^ 64 ≤ SoundLink.Preamble.length p.ramp.toNat ∧ e = .overflow := by
  simp [Preamble.check, Outcome.bind_eq_fault (α := ℕ), Outcome.bind_unit_eq_fault, checkThreshold,
    require_ne_fault, counted_eq_fault]

/-- The fields that are checked before the length of the preamble is counted. -/
structure Phy.ReachesLength (p : Phy) : Prop where
  bytesPerFrame_ne : p.bytesPerFrame ≠ 0
  bytesPerFrame_le : p.bytesPerFrame.toNat ≤ 127
  ramp_ne : p.preamble.ramp ≠ 0
  preamble_amplitude : IsAmplitude p.preamble.amplitude
  carrier_amplitude : IsAmplitude p.carrier.amplitude

theorem Phy.check_eq_fault {p : Phy} :
    p.check = .fault e ↔ (p.ReachesLength ∧
      2 ^ 64 ≤ SoundLink.Preamble.length p.preamble.ramp.toNat) ∧ e = .overflow := by
  have hamplitude : ∀ {field x}, checkAmplitude field x ≠ .fault e := require_ne_fault
  have hthreshold : ∀ {field x top}, checkThreshold field x top ≠ .fault e := require_ne_fault
  have hcapacity : ∀ {field n}, checkCapacity field n ≠ .fault e := require_ne_fault
  have hwindow : ∀ {field n}, checkWindow field n ≠ .fault e := by
    simp [checkWindow, Outcome.bind_unit_eq_fault, require_ne_fault]
  simp only [Phy.check, Outcome.bind_unit_eq_fault, require_ne_fault, hamplitude, hthreshold,
    hcapacity, hwindow, false_or, or_false, and_false, require_eq_ok, checkAmplitude_eq_ok,
    Preamble.check_eq_fault, Bool.and_eq_true, decide_eq_true_eq]
  constructor
  · rintro ⟨⟨hne, hle⟩, hramp, hpreamble, hcarrier, hlength, he⟩
    exact ⟨⟨⟨hne, hle, hramp, hpreamble, hcarrier⟩, hlength⟩, he⟩
  · rintro ⟨⟨h, hlength⟩, he⟩
    exact ⟨⟨h.bytesPerFrame_ne, h.bytesPerFrame_le⟩, h.ramp_ne, h.preamble_amplitude,
      h.carrier_amplitude, hlength, he⟩

/-- The checks come to a count that no word holds: the length of the preamble, or a link frame with its
header. -/
def Overflows (c : Config) : Prop :=
  c.device.Valid ∧ (c.phy.ReachesLength ∧ 2 ^ 64 ≤ SoundLink.Preamble.length c.phy.preamble.ramp.toNat ∨
    c.phy.Valid ∧ c.mac.Valid ∧ 2 ^ 64 ≤ c.mac.bytesPerFrame.toNat + 2)

theorem check_eq_fault_iff {c : Config} : c.check = .fault e ↔ c.Overflows ∧ e = .overflow := by
  simp only [check, Outcome.bind_eq_fault (α := ℕ), Outcome.bind_unit_eq_fault, require_ne_fault,
    Device.check_ne_fault, Mac.check_ne_fault, false_or, or_false, and_false, exists_false,
    Device.check_eq_ok_iff, Phy.check_eq_ok_iff, Mac.check_eq_ok_iff, Phy.check_eq_fault,
    counted_eq_fault, Overflows, macHeaderBytes]
  tauto

end Config

namespace Session

variable {σ : Type} {m : Medium σ} {Q : σ → Prop} {bytes : List UInt8}

def KeptByAnswers (m : Medium σ) (Q : σ → Prop) : Prop :=
  ∀ w (h : MacHeader), Q w → Q (m.answer w h.bytes).1

def KeptByPlaying (m : Medium σ) (Q : σ → Prop) (bytes : List UInt8) : Prop :=
  ∀ w, Q w → Q (m.play w bytes).1

theorem medium_hear (hanswer : KeptByAnswers m Q) {w : Session σ} (h : Q w.medium)
    (packet : List UInt8) : Q (w.hear m packet).medium := by
  unfold hear
  split
  · exact h
  · split_ifs
    · exact h
    · exact hanswer _ _ h

structure Run.Holds (Q : σ → Prop) (bytes : List UInt8) (r : Run σ) : Prop where
  bytes_eq : r.bytes = bytes
  medium : Q r.session.medium

namespace Run.Holds

variable {r : Run σ}

theorem occur (h : r.Holds Q bytes) (o : Occurrence) : (r.occur o).Holds Q bytes := by
  unfold Run.occur
  split
  · exact h
  · exact ⟨h.bytes_eq, h.medium⟩

theorem collect (h : r.Holds Q bytes) : r.collect.Holds Q bytes := by
  unfold Run.collect
  split
  · split_ifs
    · refine occur ?_ _
      exact ⟨h.bytes_eq, h.medium⟩
    · exact h
  · exact h

theorem meet (hanswer : KeptByAnswers m Q) (h : r.Holds Q bytes) (i : Incident) :
    (r.meet m i).Holds Q bytes := by
  cases i with
  | packet packet =>
    unfold Run.meet
    split_ifs
    · exact h
    · refine collect ?_
      exact ⟨h.bytes_eq, medium_hear hanswer h.medium packet⟩
  | disturbance e => exact h.occur _
  | closing => exact ⟨h.bytes_eq, h.medium⟩

theorem meetAll (hanswer : KeptByAnswers m Q) (h : r.Holds Q bytes) (incidents : List Incident) :
    (incidents.foldl (Run.meet m) r).Holds Q bytes := by
  induction incidents generalizing r with
  | nil => exact h
  | cons i incidents ih => exact ih (h.meet hanswer i)

theorem attempt (hanswer : KeptByAnswers m Q) (hplay : KeptByPlaying m Q bytes)
    (h : r.Holds Q bytes) : (r.attempt m).Holds Q bytes := by
  have hfree := h.occur .free
  obtain ⟨result, -, hattempt⟩ | ⟨t, -, hattempt⟩ := r.attempt_cases m
  · rw [hattempt]
    exact hfree
  · have hplayed := hplay _ hfree.medium
    rw [← hfree.bytes_eq] at hplayed
    have hnext : ((r.occur .free).handOver m).Holds Q bytes := ⟨hfree.bytes_eq, hplayed⟩
    split at hattempt
    · rw [hattempt]
      refine occur ?_ _
      exact ⟨hfree.bytes_eq, hplayed⟩
    · rw [hattempt]
      exact (hnext.occur _).occur _
    · rw [hattempt]
      exact ((meetAll hanswer (hnext.occur _).collect _).occur _).occur _

theorem repeatedly (hanswer : KeptByAnswers m Q) (hplay : KeptByPlaying m Q bytes)
    (h : r.Holds Q bytes) (n : ℕ) : (r.repeatedly m n).Holds Q bytes := by
  induction n generalizing r with
  | zero => exact h
  | succ n ih =>
    rw [Run.repeatedly]
    split
    · exact h
    · exact ih (h.attempt hanswer hplay)

end Run.Holds

theorem medium_transmitAll (hanswer : KeptByAnswers m Q) {frames : List (MacHeader × List UInt8)}
    (hplay : ∀ f ∈ frames, KeptByPlaying m Q (f.1.frame f.2)) {w : Session σ} (h : Q w.medium) :
    Q (w.transmitAll m frames).1.medium := by
  induction frames generalizing w with
  | nil => exact h
  | cons f frames ih =>
    obtain ⟨header, part⟩ := f
    have hstart : (w.begin header part).Holds Q (header.frame part) := ⟨rfl, h⟩
    have hsent : Q (w.transmit m header part).1.medium :=
      (hstart.repeatedly hanswer (hplay _ List.mem_cons_self) _).medium
    rw [transmitAll]
    split
    · rename_i w' hok
      rw [hok] at hsent
      exact ih (fun f hf ↦ hplay f (List.mem_cons_of_mem _ hf)) hsent
    · exact hsent

theorem medium_send (hanswer : KeptByAnswers m Q) {destination : UInt8} {payload : List UInt8}
    {w : Session σ}
    (hplay : ∀ f ∈ w.station.frames destination payload, KeptByPlaying m Q (f.1.frame f.2))
    (h : Q w.medium) : Q (w.send m destination payload).1.medium := by
  unfold send
  split_ifs
  · exact h
  · exact h
  · have hsent := medium_transmitAll hanswer hplay
      (w := w.remark (.sending payload.length destination (w.station.frames destination payload).length))
      h
    dsimp only
    split
    · rename_i w' hok
      rw [hok] at hsent
      exact hsent
    · exact hsent

end Session

/-- A medium that keeps what is played over it, answers included, in order. -/
def Medium.recorded {σ : Type} (m : Medium σ) : Medium (σ × List (List UInt8)) where
  play w bytes := (((m.play w.1 bytes).1, w.2 ++ [bytes]), (m.play w.1 bytes).2)
  answer w ack := (((m.answer w.1 ack).1, w.2 ++ [ack]), (m.answer w.1 ack).2)

/-- All that a station plays over a medium while it sends a payload. -/
def Station.plays {σ : Type} (s : Station) (m : Medium σ) (w : σ) (destination : UInt8)
    (payload : List UInt8) : List (List UInt8) :=
  (Session.send m.recorded ⟨s, (w, []), []⟩ destination payload).1.medium.2

namespace Config.Valid

variable {c : Config} (h : c.Valid)
include h

theorem modulate_of_length_le {bytes : List UInt8} (hne : bytes ≠ [])
    (hle : bytes.length ≤ c.mac.bytesPerFrame.toNat + 2) :
    c.phy.modulator.modulate bytes = .ok (c.phy.modulator.frame (.ofSize bytes.length true 0) bytes) :=
  Modulator.modulate_of_le hne (hle.trans h.headroom)

theorem modulate_header (header : MacHeader) :
    c.phy.modulator.modulate header.bytes =
      .ok (c.phy.modulator.frame (.ofSize header.bytes.length true 0) header.bytes) :=
  h.modulate_of_length_le (List.cons_ne_nil _ _) (Nat.le_add_left _ _)

theorem modulate_frame {s : Station} (hs : s.bytesPerFrame = c.mac.bytesPerFrame.toNat)
    {destination : UInt8} {payload : List UInt8} {f : MacHeader × List UInt8}
    (hf : f ∈ s.frames destination payload) :
    c.phy.modulator.modulate (f.1.frame f.2) =
      .ok (c.phy.modulator.frame (.ofSize (f.1.frame f.2).length true 0) (f.1.frame f.2)) := by
  obtain ⟨i, hi, rfl⟩ := List.mem_mapIdx.1 hf
  have hpart := (mem_chunks (List.getElem_mem hi)).2
  refine h.modulate_of_length_le (List.cons_ne_nil _ _) ?_
  rw [MacHeader.frame, List.length_append, ← hs]
  exact (Nat.add_comm _ _).le.trans (Nat.add_le_add_right hpart 2)

theorem modulate_plays {σ : Type} {s : Station} (hs : s.bytesPerFrame = c.mac.bytesPerFrame.toNat)
    (m : Medium σ) (w : σ) (destination : UInt8) (payload : List UInt8) :
    ∀ bytes ∈ s.plays m w destination payload, c.phy.modulator.modulate bytes =
      .ok (c.phy.modulator.frame (.ofSize bytes.length true 0) bytes) := by
  -- the medium is recorded, and what it keeps is that every record fits a frame
  let Q (w : σ × List (List UInt8)) : Prop := ∀ bytes ∈ w.2, c.phy.modulator.modulate bytes =
    .ok (c.phy.modulator.frame (.ofSize bytes.length true 0) bytes)
  have hsnoc : ∀ {w : σ × List (List UInt8)} {v : σ} {bytes}, Q w →
      c.phy.modulator.modulate bytes =
        .ok (c.phy.modulator.frame (.ofSize bytes.length true 0) bytes) → Q (v, w.2 ++ [bytes]) := by
    intro w v bytes hw hbytes b hb
    rcases List.mem_append.1 hb with hb | hb
    · exact hw b hb
    · rw [List.mem_singleton.1 hb]
      exact hbytes
  exact Session.medium_send (m := m.recorded) (Q := Q)
    (fun _ header hw ↦ hsnoc hw (h.modulate_header header))
    (fun f hf _ hw ↦ hsnoc hw (h.modulate_frame hs hf)) nofun

end Config.Valid

/-- The checks of a configuration either say whether it describes a link or end at a count that no
word holds, and they do the latter for two fields only. Where they pass, a link frame with its header
fits a physical frame, and all that a station plays, its answers included, is sent in one frame. -/
theorem Config.check_leaves_headroom (c : Config) :
    (c.check = .fault .overflow ↔ c.Overflows) ∧
    (¬c.Overflows → c.check = .ok () ∨ ∃ i, c.check = .fail i) ∧
    (c.check = .ok () →
      c.mac.bytesPerFrame.toNat + 2 ≤ c.phy.bytesPerFrame.toNat ∧
      (∀ (s : Station), s.bytesPerFrame = c.mac.bytesPerFrame.toNat →
        ∀ (σ : Type) (m : Medium σ) (w : σ) (destination : UInt8) (payload : List UInt8),
          ∀ bytes ∈ s.plays m w destination payload, c.phy.modulator.modulate bytes =
            .ok (c.phy.modulator.frame (.ofSize bytes.length true 0) bytes)) ∧
      ∀ (s : Station) (packet : List UInt8) (ack : MacHeader), (s.handle packet).2 = some ack →
        c.phy.modulator.modulate ack.bytes =
          .ok (c.phy.modulator.frame (.ofSize ack.bytes.length true 0) ack.bytes)) := by
  refine ⟨check_eq_fault_iff.trans (and_iff_left rfl), fun hcounts ↦ ?_, fun hok ↦ ?_⟩
  · match hcheck : c.check with
    | .ok () => exact .inl rfl
    | .error (.error i) => exact .inr ⟨i, rfl⟩
    | .error (.fault e) => exact absurd (check_eq_fault_iff.1 hcheck).1 hcounts
  · have h := check_eq_ok_iff.1 hok
    exact ⟨h.headroom, fun s hs σ m w destination payload ↦ h.modulate_plays hs m w destination payload,
      fun _ _ ack _ ↦ h.modulate_header ack⟩

def Medium.deaf : Medium Unit where
  play _ _ := ((), .played [])
  answer _ _ := ((), [])

theorem Config.check_leaves_headroom_default :
    Config.check {} = .ok () ∧
      (Station.ofConfig {}).plays Medium.deaf () 1 (List.replicate 125 9) =
        List.replicate 6 ((MacHeader.data 0 1 0 true).frame (List.replicate 125 9)) ∧
      ∀ bytes ∈ (Station.ofConfig {}).plays Medium.deaf () 1 (List.replicate 125 9),
        Modulator.modulate (Config.Phy.modulator {}) bytes =
          .ok (Modulator.frame (Config.Phy.modulator {}) (.ofSize bytes.length true 0) bytes) := by
  have hcheck : Config.check {} = .ok () := by decide +kernel
  obtain ⟨-, -, hfits⟩ := Config.check_leaves_headroom {}
  exact ⟨hcheck, by decide +kernel,
    (hfits hcheck).2.1 (Station.ofConfig {}) rfl Unit Medium.deaf () 1 (List.replicate 125 9)⟩

/-- The largest frame of the link layer has no size with its header, and the ramp of 2^32 samples has
no length: the checks end there, though the frame does not fit and the preamble is too long. -/
theorem Config.check_overflow :
    Config.check { mac := { bytesPerFrame := 18446744073709551615 } } = .fault .overflow ∧
      Config.check { phy := { preamble := { ramp := 4294967296 } } } = .fault .overflow := by
  decide +kernel

end SoundLink
