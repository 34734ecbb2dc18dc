import SoundLink.Proofs.PreambleSearch

namespace SoundLink

theorem FrameHeader.parse_bytes {h : FrameHeader} (hpos : 0 < h.size.toNat)
    (hle : h.size.toNat ≤ 127) :
    ∃ first, h.bytes = [first, h.index] ∧ parse first h.index = .ok h := by
  obtain ⟨size, isLast, index⟩ := h
  have hall : ∀ size : Fin 128, ∀ isLast : Bool, 0 < size.val →
      ((if isLast then 0x80 else 0) ||| (UInt8.ofNat size &&& 0x7f)) &&& 0x7f = UInt8.ofNat size ∧
        UInt8.ofNat size ≠ 0 ∧
        decide (((if isLast then 0x80 else 0) ||| (UInt8.ofNat size &&& 0x7f)) &&& 0x80 ≠ 0) =
          isLast := by
    decide +kernel
  obtain ⟨h₁, h₂, h₃⟩ := hall ⟨size.toNat, Nat.lt_succ_of_le hle⟩ isLast hpos
  simp only [UInt8.ofNat_toNat] at h₁ h₂ h₃
  refine ⟨_, rfl, ?_⟩
  rw [parse, h₁, if_neg h₂, h₃]

def Modulator.frameBits (m : Modulator) (header : FrameHeader) (payload : List UInt8) : List Bool :=
  header.bytes.flatMap (byteBits m.headerSize) ++ payload.flatMap (byteBits m.size)
    ++ byteBits m.size (m.crc.checksum payload)

theorem Modulator.length_frameBits (m : Modulator) (header : FrameHeader) (payload : List UInt8) :
    m.preamble.length + (m.frameBits header payload).length + m.interval =
    m.frameSamples payload.length := by
  simp only [frameBits, frameSamples, FrameHeader.bytes, List.length_append, List.length_flatMap,
    length_byteBits, List.map_const', List.sum_replicate, List.length_cons, List.length_nil]
  simp
  ring

theorem Modulator.byteSamples_eq (m : Modulator) (size : ℕ) (b : UInt8) :
    m.byteSamples size b = (byteBits size b).map (tone m.amplitude) := by
  have h : m.level size = List.map (tone m.amplitude) ∘ List.replicate size := by
    funext bit
    simp [level, tone]
  rw [byteSamples, byteBits, List.map_flatMap, h]
  rfl

theorem Modulator.frame_eq (m : Modulator) (header : FrameHeader) (payload : List UInt8) :
    m.frame header payload =
      m.preamble ++
        ((m.frameBits header payload).map (tone m.amplitude) ++ List.replicate m.interval 0) := by
  have h (size : ℕ) : m.byteSamples size = fun b ↦ (byteBits size b).map (tone m.amplitude) :=
    funext (m.byteSamples_eq size)
  simp [frame, frameBits, h, List.map_flatMap]

namespace Demodulator

variable {d : Demodulator} {phase : Fixed} {p : List UInt8} {i : Option UInt8} {es : List Event}
  {τ : State}
variable {header : FrameHeader} {payload : List UInt8}

/-- The bytes of the packet that a frame belongs to, up to the end of the frame. -/
def packetWith (p : List UInt8) (header : FrameHeader) (payload : List UInt8) : List UInt8 :=
  (if header.index = 0 then [] else p) ++ payload

def State.afterFrame (p : List UInt8) (header : FrameHeader) (payload : List UInt8) : State :=
  if header.isLast then .initial
  else ⟨.search .start, packetWith p header payload, some header.index⟩

def frameEvents (p : List UInt8) (header : FrameHeader) (payload : List UInt8) : List Event :=
  if header.isLast then [.packet (packetWith p header payload)] else []

theorem reads_payload {R : Fixed → List Sample → List Bool → Prop} {least : ℕ}
    {G : State → List Sample → Prop} {chunk bs : List UInt8} {crc : UInt8} {rest : List Bool}
    (hR : Legible phase least R) (hG : d.Inherits G) (hleast : least ≤ d.size)
    (hle : d.size ≤ 32767) (hlen : chunk.length + bs.length = header.size.toNat) (hbs : bs ≠ [])
    (h : ReadsBy R G phase (.checksum header (chunk ++ bs) (d.crc.updateBytes crc bs)) p i rest) :
    ReadsBy R G phase (.payload header chunk crc) p i (bs.flatMap (byteBits d.size) ++ rest) := by
  induction bs generalizing chunk crc with
  | nil => exact absurd rfl hbs
  | cons b bs ih =>
    rw [List.flatMap_cons, List.append_assoc]
    rw [List.length_cons] at hlen
    by_cases hlast : bs = []
    · subst hlast
      have hfull : header.size.toNat ≤ (chunk ++ [b]).length := by simp at hlen ⊢; omega
      refine ReadsBy.byte (.payload header chunk crc) _ [] hR hG hleast hle ?_ rfl h
      rintro σ r rfl rfl
      simp only [receive, if_pos hfull]
      rfl
    · have hmore : ¬header.size.toNat ≤ (chunk ++ [b]).length := by
        have := List.length_pos_iff.2 hlast
        simp
        omega
      have hrest : chunk ++ [b] ++ bs = chunk ++ b :: bs := by simp
      refine ReadsBy.byte (.payload header chunk crc)
        (.payload header (chunk ++ [b]) (d.crc.update crc b)) [] hR hG hleast
        hle ?_ rfl (ih (by simp; omega) hlast (hrest ▸ h))
      rintro σ r rfl rfl
      simp only [receive, if_neg hmore]

theorem carries_check {Rest : Fixed → List Sample → Prop} {chunk : List UInt8} {crc : UInt8}
    {last : Fixed} {xs : List Sample} (hxs : Spells phase d.size Rest last xs (LineCode.sent crc))
    (h : ∀ last ys, Rest last ys → d.Carries
      (if header.isLast then .initial else ⟨.search .start, p ++ chunk, some header.index⟩) ys es τ) :
    d.Carries ⟨.extract (.start last phase) (.checksum header chunk crc), p, i⟩ xs
      ((if header.isLast then [.packet (p ++ chunk)] else []) ++ es) τ := by
  change Spells phase (d.sizeAt (.checksum header chunk crc)) Rest last xs _ at hxs
  refine carries_byte hxs ?_
  rintro σ last ys rfl rfl hys
  have hrest := h last ys hys
  cases hlast : header.isLast with
  | false =>
    rw [hlast] at hrest
    exact ⟨_, [.frame header.index chunk.length], es, by simp [receive, hlast], rfl, hrest⟩
  | true =>
    rw [hlast] at hrest
    exact ⟨_, [.frame header.index chunk.length, .packet (σ.packet ++ chunk)], es,
      by simp [receive, hlast], rfl, hrest⟩

/-- The header and the payload of a frame that may follow are read; what was held is dropped at
index 0. -/
theorem reads_frame {R : Fixed → List Sample → List Bool → Prop} {least : ℕ}
    {G : State → List Sample → Prop} {m : Modulator} {rest : List Bool} (hR : Legible phase least R)
    (hG : d.Inherits G) (hsize : d.size = m.size) (hheader : d.headerSize = m.headerSize)
    (hleast : least ≤ d.size) (hle : d.size ≤ 32767) (hhleast : least ≤ d.headerSize)
    (hhle : d.headerSize ≤ 32767) (hlen : header.size.toNat = payload.length) (hne : payload ≠ [])
    (hmax : payload.length ≤ 127) (hfollows : follows i header.index = .ok ())
    (h : ReadsBy R G phase (.checksum header payload (d.crc.checksum payload))
      (if header.index = 0 then [] else p) i rest) :
    ReadsBy R G phase (.header none) p i
      (header.bytes.flatMap (byteBits m.headerSize) ++ (payload.flatMap (byteBits m.size) ++ rest)) := by
  have hlpos := List.length_pos_iff.2 hne
  obtain ⟨first, hbytes, hparse⟩ := FrameHeader.parse_bytes (h := header) (by omega) (by omega)
  have hbits : header.bytes.flatMap (byteBits m.headerSize) ++
      (payload.flatMap (byteBits m.size) ++ rest) =
      byteBits d.headerSize first ++ (byteBits d.headerSize header.index ++
      (payload.flatMap (byteBits d.size) ++ rest)) := by
    simp [hbytes, hsize, hheader]
  have hrest : ReadsBy R G phase (.payload header [] 0) (if header.index = 0 then [] else p) i
      (payload.flatMap (byteBits d.size) ++ rest) :=
    reads_payload hR hG hleast hle (by rw [List.length_nil, Nat.zero_add, hlen]) hne h
  have hindex : ReadsBy R G phase (.header (some first)) p i
      (byteBits d.headerSize header.index ++ (payload.flatMap (byteBits d.size) ++ rest)) := by
    refine ReadsBy.byte (.header (some first)) (.payload header [] 0)
      ((if header.index = 0 ∧ p ≠ [] then [.restarted p.length] else []) ++ [.header header])
      hR hG hhleast hhle ?_ ?_ hrest
    · rintro σ r rfl rfl
      simp only [receive, hparse, bind, Except.bind, hfollows]
      rfl
    · split <;> rfl
  rw [hbits]
  exact ReadsBy.byte (.header none) (.header (some first)) [] hR hG hhleast hhle
    (by rintro σ r rfl rfl; rfl) rfl hindex

theorem carries_frame_by {R : Fixed → List Sample → List Bool → Prop} {least : ℕ} {m : Modulator}
    {rest : List Sample} (hR : Legible phase least R) (hend : ∀ last ys, R last ys [] → ys = rest)
    (hrest : d.Carries (.afterFrame p header payload) rest es τ) (hcrc : d.crc = m.crc)
    (hsize : d.size = m.size) (hheader : d.headerSize = m.headerSize) (hleast : least ≤ d.size)
    (hle : d.size ≤ 32767) (hhleast : least ≤ d.headerSize) (hhle : d.headerSize ≤ 32767)
    (hlen : header.size.toNat = payload.length) (hne : payload ≠ []) (hmax : payload.length ≤ 127)
    (hfollows : follows i header.index = .ok ()) :
    ReadsBy R (fun σ xs ↦ d.Carries σ xs (frameEvents p header payload ++ es) τ) phase
      (.header none) p i (m.frameBits header payload) := by
  have hchecksum : m.crc.checksum payload = d.crc.checksum payload := by rw [hcrc]
  rw [Modulator.frameBits, List.append_assoc, hchecksum]
  refine reads_frame hR (d.inherits_carries _ _) hsize hheader hleast hle hhleast hhle hlen hne hmax
    hfollows fun last xs hxs ↦ ?_
  rw [← hsize, ← List.append_nil (byteBits _ _)] at hxs
  refine carries_check (hR _ _ _ _ _ hleast hle hxs) fun last ys hys ↦ ?_
  rw [hend last ys hys]
  exact hrest

theorem delivers_frame {m : Modulator} (hcrc : d.crc = m.crc) (hsize : d.size = m.size)
    (hheader : d.headerSize = m.headerSize) (hpos : 0 < d.size) (hle : d.size ≤ 32767)
    (hhpos : 0 < d.headerSize) (hhle : d.headerSize ≤ 32767)
    (hlen : header.size.toNat = payload.length) (hne : payload ≠ []) (hmax : payload.length ≤ 127)
    (hfollows : follows i header.index = .ok ()) :
    d.Delivers phase (.header none) p i (m.frameBits header payload) (frameEvents p header payload)
      (.afterFrame p header payload) := by
  have hnone (last : Fixed) (ys : List Sample) (h : Faithful phase last ys []) : ys = [] := by
    cases ys with
    | nil => rfl
    | cons => exact h.elim
  have hreads := carries_frame_by (p := p) (legible_faithful phase) hnone .nil hcrc hsize hheader hpos
    hle hhpos hhle hlen hne hmax hfollows
  rwa [List.append_nil] at hreads

end Demodulator

namespace CleanLink

open Demodulator

variable {n : ℕ} {A : Sample} {m : Modulator} {d : Demodulator} (h : CleanLink n A m d)
variable {σ : State} {header : FrameHeader} {payload : List UInt8} {rest : List Sample}
include h

/-- A frame that may follow is taken from a quiet search, which is quiet again after it. -/
theorem carries_frame (hσ : d.Quiet σ) (hlen : header.size.toNat = payload.length)
    (hne : payload ≠ []) (hmax : payload.length ≤ 127)
    (hfollows : follows σ.lastIndex header.index = .ok ()) (hrest : ∀ s ∈ rest, |s.toInt| ≤ A.toInt)
    (hlong : Preamble.length n ≤ rest.length) :
    ∃ υ, d.Quiet υ ∧ υ.packet = (State.afterFrame σ.packet header payload).packet ∧
      υ.lastIndex = (State.afterFrame σ.packet header payload).lastIndex ∧
      ∀ fs τ, d.Carries υ rest fs τ →
        d.Carries σ (m.frame header payload ++ rest)
          (frameEvents σ.packet header payload ++ fs) τ := by
  have hpos := h.headerSize_pos
  have hbits : m.frameBits header payload ≠ [] := by
    intro he
    have hlength := congrArg List.length he
    simp [Modulator.frameBits, FrameHeader.bytes, byteBits, LineCode.length_sent,
      LineCode.wordBits] at hlength
    omega
  have hphase : (State.afterFrame σ.packet header payload).phase = .search .start := by
    unfold State.afterFrame
    split <;> rfl
  obtain ⟨υ, hυ, hp, hi, hrun⟩ := h.carries_bits_of_quiet hσ hrest hbits h.interval_pos (by omega)
    (fun phase ↦ delivers_frame h.crc_eq h.size_eq h.headerSize_eq (h.size_eq ▸ h.size_pos)
      (h.size_eq ▸ h.size_le) (h.headerSize_eq ▸ h.headerSize_pos)
      (h.headerSize_eq ▸ h.headerSize_le) hlen hne hmax
      hfollows) hphase
  refine ⟨υ, hυ, hp, hi, fun fs τ hfs ↦ ?_⟩
  rw [Modulator.frame_eq, List.append_assoc]
  exact hrun fs τ hfs

end CleanLink

end SoundLink
