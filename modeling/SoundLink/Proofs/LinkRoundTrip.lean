import SoundLink.Proofs.Chunks
import SoundLink.Proofs.FrameReading

namespace SoundLink

open Demodulator

theorem toNat_ofSize {size : ℕ} (h : size ≤ 127) (isLast : Bool) (index : UInt8) :
    (FrameHeader.ofSize size isLast index).size.toNat = size := by
  have hall : ∀ size : Fin 128, (UInt8.ofNat size &&& 0x7f).toNat = size := by decide +kernel
  exact hall ⟨size, Nat.lt_succ_of_le h⟩

theorem ofNat_eq_zero_iff {j : ℕ} (h : j < 256) : UInt8.ofNat j = 0 ↔ j = 0 := by
  rw [← UInt8.toNat_inj, UInt8.toNat_ofNat', Nat.mod_eq_of_lt h]
  rfl

theorem follows_ofNat {lastIndex : Option UInt8} {j : ℕ}
    (h : j = 0 ∨ lastIndex = some (UInt8.ofNat (j - 1))) :
    follows lastIndex (UInt8.ofNat j) = .ok () := by
  obtain rfl | hlast := h
  · simp [follows]
  · obtain rfl | hpos := Nat.eq_zero_or_pos j
    · simp [follows]
    · have hnext : UInt8.ofNat j = UInt8.ofNat (j - 1) + 1 := by
        rw [← UInt8.toNat_inj, UInt8.toNat_add, UInt8.toNat_ofNat', UInt8.toNat_ofNat']
        simp
        omega
      simp [follows, hlast, ← hnext]

def Modulator.frameAt (count j : ℕ) (part : List UInt8) : FrameHeader × List UInt8 :=
  (.ofSize part.length (j + 1 = count) (UInt8.ofNat j), part)

@[simp] theorem Modulator.frameAt_snd (count j : ℕ) (part : List UInt8) :
    (frameAt count j part).2 = part := rfl

def Modulator.sound (m : Modulator) (bytes : List UInt8) : List Sample :=
  (m.frames bytes).flatMap fun (header, part) ↦ m.frame header part

theorem Modulator.modulate_eq {m : Modulator} {bytes : List UInt8} (hpos : 0 < m.bytesPerFrame)
    (hmax : bytes.length ≤ maxFrames * m.bytesPerFrame) :
    m.modulate bytes = .ok (m.sound bytes) := by
  have hcount := length_chunks_le hpos hmax
  rw [length_chunks hpos] at hcount
  rw [modulate, frameCount, if_neg hpos.ne']
  simp only [hcount.not_gt, if_false, sound]

theorem Modulator.modulate_of_le {m : Modulator} {bytes : List UInt8} (hne : bytes ≠ [])
    (hle : bytes.length ≤ m.bytesPerFrame) :
    m.modulate bytes = .ok (m.frame (.ofSize bytes.length true 0) bytes) := by
  have hpos : 0 < m.bytesPerFrame := (List.length_pos_iff.2 hne).trans_le hle
  have hmax : bytes.length ≤ maxFrames * m.bytesPerFrame :=
    hle.trans (Nat.le_mul_of_pos_left _ (by decide))
  rw [modulate_eq hpos hmax, sound, frames, chunks_of_length_le hne hle]
  simp

theorem Modulator.abs_of_mem_frame {m : Modulator} {B : ℤ} {header : FrameHeader}
    {payload : List UInt8} {s : Sample} (hpre : ∀ s ∈ m.preamble, |s.toInt| ≤ B)
    (ha : 0 ≤ m.amplitude.toInt) (haB : m.amplitude.toInt ≤ B) (hs : s ∈ m.frame header payload) :
    |s.toInt| ≤ B := by
  rw [Modulator.frame_eq] at hs
  rcases List.mem_append.1 hs with hs | hs
  · exact hpre s hs
  rcases List.mem_append.1 hs with hs | hs
  · obtain ⟨bit, -, rfl⟩ := List.mem_map.1 hs
    exact (abs_tone ha bit).trans_le haB
  · rw [List.eq_of_mem_replicate hs, Int32.toInt_zero, abs_zero]
    exact ha.trans haB

theorem Modulator.sound_eq_append {m : Modulator} {bytes : List UInt8} (hpos : 0 < m.bytesPerFrame)
    (hne : bytes ≠ []) : ∃ after, m.sound bytes = m.preamble ++ after := by
  obtain ⟨part, parts, hparts⟩ := List.exists_cons_of_ne_nil (chunks_ne_nil hpos hne)
  rw [sound, frames, hparts, List.mapIdx_cons, List.flatMap_cons]
  dsimp only
  rw [Modulator.frame_eq, List.append_assoc]
  exact ⟨_, rfl⟩

/-- Packets on the line, each after some silence. -/
def Modulator.line (m : Modulator) : List (ℕ × List UInt8) → Outcome PhyError (List Sample)
  | [] => .ok []
  | (gap, bytes) :: rest => do
    let sound ← m.modulate bytes
    let others ← m.line rest
    return List.replicate gap 0 ++ sound ++ others

namespace CleanLink

variable {n : ℕ} {A : Sample} {m : Modulator} {d : Demodulator} (h : CleanLink n A m d)
variable {σ : State} {rest : List Sample}
include h

theorem abs_of_mem_frame {header : FrameHeader} {payload : List UInt8} {s : Sample}
    (hs : s ∈ m.frame header payload) : |s.toInt| ≤ A.toInt := by
  have ha := h.le_amplitude
  refine Modulator.abs_of_mem_frame (fun s hs ↦ ?_) (by omega) h.amplitude_le hs
  rw [h.preamble_eq] at hs
  exact h.abs_of_mem_preamble hs

theorem carries_frames {parts : List (List UInt8)} {count j : ℕ} (hσ : d.Quiet σ)
    (hcount : j + parts.length = count) (hmax : count ≤ 256) (hne : parts ≠ [])
    (hparts : ∀ part ∈ parts, part ≠ [] ∧ part.length ≤ 127)
    (hj : j = 0 ∨ σ.lastIndex = some (UInt8.ofNat (j - 1)))
    (hrest : ∀ s ∈ rest, |s.toInt| ≤ A.toInt) (hlong : Preamble.length n ≤ rest.length) :
    ∃ υ, d.Quiet υ ∧ ∀ fs τ, d.Carries υ rest fs τ →
      d.Carries σ (((parts.mapIdx fun i ↦ Modulator.frameAt count (j + i)).flatMap
        fun (header, part) ↦
        m.frame header part) ++ rest)
        (.packet ((if j = 0 then [] else σ.packet) ++ parts.flatten) :: fs) τ := by
  induction parts generalizing σ j with
  | nil => exact absurd rfl hne
  | cons part parts ih =>
    obtain ⟨hpne, hple⟩ := hparts part List.mem_cons_self
    rw [List.length_cons] at hcount
    have hindex : UInt8.ofNat j = 0 ↔ j = 0 := ofNat_eq_zero_iff (by omega)
    have hfollows := follows_ofNat hj
    rw [mapIdx_cons_add (Modulator.frameAt count), List.flatMap_cons, List.append_assoc,
      List.flatten_cons]
    generalize hsound : (parts.mapIdx fun i ↦ Modulator.frameAt count (j + 1 + i)).flatMap
      (fun (header, part) ↦ m.frame header part) = sound
    have hbound : ∀ s ∈ sound ++ rest, |s.toInt| ≤ A.toInt := by
      intro s hs
      obtain hs | hs := List.mem_append.1 hs
      · rw [← hsound] at hs
        obtain ⟨f, -, hs⟩ := List.mem_flatMap.1 hs
        exact h.abs_of_mem_frame hs
      · exact hrest s hs
    have hsize : (Modulator.frameAt count j part).1.size.toNat = part.length :=
      toNat_ofSize hple _ _
    obtain ⟨υ, hυ, hp, hi, hrun⟩ := h.carries_frame hσ hsize hpne hple hfollows hbound
      (by rw [List.length_append]; omega)
    have hwith : packetWith σ.packet (Modulator.frameAt count j part).1 part =
        (if j = 0 then [] else σ.packet) ++ part := by
      simp only [packetWith, Modulator.frameAt, FrameHeader.ofSize, hindex]
    cases parts with
    | nil =>
      have hlast : (Modulator.frameAt count j part).1.isLast = true := by
        simp [Modulator.frameAt, FrameHeader.ofSize, ← hcount]
      refine ⟨υ, hυ, fun fs τ hfs ↦ ?_⟩
      rw [← hsound] at hrun ⊢
      have := hrun fs τ hfs
      rw [frameEvents, hlast, if_pos rfl, hwith] at this
      simpa using this
    | cons next parts =>
      have hlast : (Modulator.frameAt count j part).1.isLast = false := by
        simp [Modulator.frameAt, FrameHeader.ofSize, ← hcount]
      rw [State.afterFrame, hlast] at hp hi
      rw [frameEvents, hlast] at hrun
      obtain ⟨φ, hφ, hmore⟩ := ih (σ := υ) (j := j + 1) hυ (by omega) (by simp)
        (fun q hq ↦ hparts q (List.mem_cons_of_mem _ hq)) (.inr hi)
      refine ⟨φ, hφ, fun fs τ hfs ↦ ?_⟩
      have := hrun _ τ (hsound ▸ hmore fs τ hfs)
      rw [if_neg (Nat.succ_ne_zero j), hp] at this
      simpa [hwith] using this

theorem abs_of_mem_sound {bytes : List UInt8} {s : Sample} (hs : s ∈ m.sound bytes) :
    |s.toInt| ≤ A.toInt := by
  obtain ⟨f, -, hs⟩ := List.mem_flatMap.1 hs
  exact h.abs_of_mem_frame hs

theorem abs_of_mem_zeros {k : ℕ} {s : Sample} (hs : s ∈ List.replicate k 0) :
    |s.toInt| ≤ A.toInt := by
  have hA := h.le_peak
  rw [List.eq_of_mem_replicate hs, Int32.toInt_zero, abs_zero]
  omega

/-- A packet is taken from a quiet search, which is quiet again after it. -/
theorem carries_packet {bytes : List UInt8} (hσ : d.Quiet σ) (hne : bytes ≠ [])
    (hmax : bytes.length ≤ maxFrames * m.bytesPerFrame) (hrest : ∀ s ∈ rest, |s.toInt| ≤ A.toInt)
    (hlong : Preamble.length n ≤ rest.length) :
    ∃ υ, d.Quiet υ ∧ ∀ fs τ, d.Carries υ rest fs τ →
      d.Carries σ (m.sound bytes ++ rest) (.packet bytes :: fs) τ := by
  have hpos := h.bytesPerFrame_pos
  have hframes : m.frames bytes = (chunks m.bytesPerFrame bytes).mapIdx fun i ↦
      Modulator.frameAt (chunks m.bytesPerFrame bytes).length (0 + i) := by
    simp only [Nat.zero_add]
    rfl
  have hparts : ∀ part ∈ chunks m.bytesPerFrame bytes, part ≠ [] ∧ part.length ≤ 127 :=
    fun part hp ↦ ⟨(mem_chunks hp).1, (mem_chunks hp).2.trans h.bytesPerFrame_le⟩
  obtain ⟨υ, hυ, hrun⟩ := h.carries_frames hσ (Nat.zero_add _) (length_chunks_le hpos hmax)
    (chunks_ne_nil hpos hne) hparts (.inl rfl) hrest hlong
  rw [← hframes, if_pos rfl, List.nil_append, flatten_chunks hpos] at hrun
  exact ⟨υ, hυ, hrun⟩

theorem line_eq {packets : List (ℕ × List UInt8)}
    (hpackets : ∀ q ∈ packets, q.2.length ≤ maxFrames * m.bytesPerFrame) :
    m.line packets =
      .ok (packets.flatMap fun (gap, bytes) ↦ List.replicate gap 0 ++ m.sound bytes) := by
  induction packets with
  | nil => rfl
  | cons q packets ih =>
    obtain ⟨gap, bytes⟩ := q
    have hmod := Modulator.modulate_eq h.bytesPerFrame_pos (hpackets _ List.mem_cons_self)
    rw [Modulator.line, hmod, ih fun q hq ↦ hpackets q (List.mem_cons_of_mem _ hq)]
    rfl

theorem carries_line {packets : List (ℕ × List UInt8)} {tail : ℕ} (hσ : d.Quiet σ)
    (hpackets : ∀ q ∈ packets, q.2 ≠ [] ∧ q.2.length ≤ maxFrames * m.bytesPerFrame)
    (htail : Preamble.length n ≤ tail) :
    ∃ τ, d.Quiet τ ∧ d.Carries σ
      ((packets.flatMap fun (gap, bytes) ↦ List.replicate gap 0 ++ m.sound bytes) ++
        List.replicate tail 0)
      (packets.map (.packet ·.2)) τ := by
  induction packets generalizing σ with
  | nil =>
    obtain ⟨τ, hτ, -, -, hrun⟩ := h.quiet_zeros tail hσ
    exact ⟨τ, hτ, hrun⟩
  | cons q packets ih =>
    obtain ⟨gap, bytes⟩ := q
    obtain ⟨hne, hmax⟩ := hpackets _ List.mem_cons_self
    obtain ⟨σ₁, hσ₁, -, -, hgap⟩ := h.quiet_zeros gap hσ
    have hrest : ∀ s ∈ (packets.flatMap fun (gap, bytes) ↦ List.replicate gap 0 ++ m.sound bytes) ++
        List.replicate tail 0, |s.toInt| ≤ A.toInt := by
      intro s hs
      obtain hs | hs := List.mem_append.1 hs
      · obtain ⟨q, -, hs⟩ := List.mem_flatMap.1 hs
        obtain hs | hs := List.mem_append.1 hs
        · exact h.abs_of_mem_zeros hs
        · exact h.abs_of_mem_sound hs
      · exact h.abs_of_mem_zeros hs
    obtain ⟨υ, hυ, hrun⟩ := h.carries_packet hσ₁ hne hmax hrest
      (by rw [List.length_append, List.length_replicate]; omega)
    obtain ⟨τ, hτ, hmore⟩ := ih hυ fun q hq ↦ hpackets q (List.mem_cons_of_mem _ hq)
    refine ⟨τ, hτ, ?_⟩
    simpa using hgap.append (hrun _ τ hmore)

end CleanLink

structure Config.Phy.Clean (p : Config.Phy) : Prop where
  le_ramp : 3 ≤ p.preamble.ramp.toNat
  ramp_le : p.preamble.ramp.toNat ≤ 127
  le_carrier : 2 ^ 24 ≤ p.carrier.peak.toInt
  carrier_le : p.carrier.peak.toInt ≤ p.preamble.peak.toInt
  size_pos : 0 < p.carrier.size.toNat
  size_le : p.carrier.size.toNat ≤ 32767
  headerSize_pos : 0 < p.carrier.headerSize.toNat
  headerSize_le : p.carrier.headerSize.toNat ≤ 32767
  bytesPerFrame_pos : 0 < p.bytesPerFrame.toNat
  bytesPerFrame_le : p.bytesPerFrame.toNat ≤ 127
  frameInterval_pos : 0 < p.frameInterval.toNat
  threshold_lt : (Fixed.ofBinary p.preamble.threshold).units <
    peakUnits p.preamble.ramp.toNat p.preamble.peak

theorem Config.Phy.Clean.cleanLink {p : Config.Phy} (hp : p.Clean) :
    CleanLink p.preamble.ramp.toNat p.preamble.peak p.modulator p.demodulator where
  three_le := hp.le_ramp
  le_127 := hp.ramp_le
  preamble_eq := rfl
  filter_eq := rfl
  le_amplitude := hp.le_carrier
  amplitude_le := hp.carrier_le
  crc_eq := rfl
  size_eq := rfl
  headerSize_eq := rfl
  size_pos := hp.size_pos
  size_le := hp.size_le
  headerSize_pos := hp.headerSize_pos
  headerSize_le := hp.headerSize_le
  bytesPerFrame_pos := hp.bytesPerFrame_pos
  bytesPerFrame_le := hp.bytesPerFrame_le
  interval_pos := hp.frameInterval_pos
  threshold_lt := hp.threshold_lt

/-- Any packets that a link can take, with any silence before each and at least a preamble of it
after the last, are delivered with the same bytes and in order, and nothing else is. -/
theorem events_run_line (p : Config.Phy) (hp : p.Clean) (packets : List (ℕ × List UInt8)) (tail : ℕ)
    (hpackets : ∀ q ∈ packets, q.2 ≠ [] ∧ q.2.length ≤ maxFrames * p.bytesPerFrame.toNat)
    (htail : Preamble.length p.preamble.ramp.toNat + 1 ≤ tail) :
    ∃ stream, p.modulator.line packets = .ok stream ∧
      events (p.demodulator.run .initial (stream ++ List.replicate tail 0)).2 =
        packets.map (.packet ·.2) ∧
      ∃ det, (p.demodulator.run .initial (stream ++ List.replicate tail 0)).1.phase =
        .search det := by
  have h := hp.cleanLink
  obtain ⟨τ, ⟨det, hdet, -⟩, hrun, hevents⟩ :=
    h.carries_line (quiet_of_start (σ := .initial) rfl) hpackets (Nat.le_of_succ_le htail)
  exact ⟨_, h.line_eq fun q hq ↦ (hpackets q hq).2, hevents, det, by rw [hrun, hdet]⟩

theorem clean_default : ({} : Config.Phy).Clean := by
  constructor <;> decide +kernel

theorem events_run_line_default :
    ∃ stream, ({} : Config.Phy).modulator.line [(3, [1, 2, 3]), (0, [255])] = .ok stream ∧
      events (({} : Config.Phy).demodulator.run .initial (stream ++ List.replicate 41 0)).2 =
        [.packet [1, 2, 3], .packet [255]] ∧
      ∃ det, (({} : Config.Phy).demodulator.run .initial (stream ++ List.replicate 41 0)).1.phase =
        .search det :=
  events_run_line {} clean_default [(3, [1, 2, 3]), (0, [255])] 41 (by decide) (by decide)

end SoundLink
