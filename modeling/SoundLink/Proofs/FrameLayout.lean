import SoundLink.Proofs.LinkRoundTrip

namespace SoundLink

variable {α : Type} {xs ys zs : List α} {start : ℕ}

theorem prefix_drop_add (h : ys ++ zs <+: xs.drop start) : zs <+: xs.drop (start + ys.length) := by
  obtain ⟨rest, hrest⟩ := h
  refine ⟨rest, ?_⟩
  rw [← List.drop_drop, ← hrest, List.append_assoc, List.drop_left]

theorem getD_of_prefix_drop (h : ys <+: xs.drop start) {k : ℕ} (hk : k < ys.length) (a : α) :
    xs.getD (start + k) a = ys[k] := by
  obtain ⟨rest, hrest⟩ := h
  rw [List.getD_eq_getElem?_getD, ← List.getElem?_drop, ← hrest, List.getElem?_append_left hk,
    List.getElem?_eq_getElem hk, Option.getD_some]

theorem forall_mem_dropLast_cons {P : α → Prop} {x : α} (h : ∀ y ∈ (x :: xs).dropLast, P y) :
    (xs ≠ [] → P x) ∧ ∀ y ∈ xs.dropLast, P y := by
  cases xs with
  | nil => exact ⟨fun hne ↦ absurd rfl hne, nofun⟩
  | cons y ys =>
    rw [List.dropLast_cons_of_ne_nil (List.cons_ne_nil y ys), List.forall_mem_cons] at h
    exact ⟨fun _ ↦ h.1, h.2⟩

/-- The bit in the middle of a slot of so many samples. -/
def slotBit (xs : List Sample) (size start : ℕ) : Bool := xs.getD (start + size / 2) 0 < 0

def slotByte (xs : List Sample) (size start : ℕ) : Option UInt8 :=
  LineCode.decode (LineCode.gather 0 0
    ((List.range LineCode.wordBits).map fun k ↦ slotBit xs size (start + k * size)))

def slotBytes (xs : List Sample) (size : ℕ) : ℕ → ℕ → Option (List UInt8)
  | _, 0 => some []
  | start, n + 1 => do
    let b ← slotByte xs size start
    let bs ← slotBytes xs size (start + LineCode.wordBits * size) n
    return b :: bs

namespace Modulator

/-- Reads a frame at a place in its packet from its slots. Its length, its index, whether it is the last
one and its checksum must be right. -/
def readFrame (m : Modulator) (count j : ℕ) (xs : List Sample) : Option (List UInt8) := do
  let headerStart := m.preamble.length
  let payloadStart := headerStart + 2 * (LineCode.wordBits * m.headerSize)
  let first ← slotByte xs m.headerSize headerStart
  let second ← slotByte xs m.headerSize (headerStart + LineCode.wordBits * m.headerSize)
  let header ← (FrameHeader.parse first second).toOption
  let size := header.size.toNat
  let payload ← slotBytes xs m.size payloadStart size
  let check ← slotByte xs m.size (payloadStart + size * (LineCode.wordBits * m.size))
  if xs.length = m.frameSamples size ∧ header.index.toNat = j ∧ header.isLast = decide (j + 1 = count) ∧
      check = m.crc.checksum payload then some payload else none

def readFrames (m : Modulator) (count : ℕ) : ℕ → List (List Sample) → Option (List UInt8)
  | _, [] => some []
  | j, part :: parts => do
    let payload ← m.readFrame count j part
    let rest ← m.readFrames count (j + 1) parts
    return payload ++ rest

/-- Reads a packet whose frames, but for the last, are as long as the longest. -/
def read (m : Modulator) (xs : List Sample) : Option (List UInt8) :=
  let parts := chunks (m.frameSamples m.bytesPerFrame) xs
  m.readFrames parts.length 0 parts

end Modulator

variable {m : Modulator}

section

variable {xs : List Sample} {size : ℕ} (hamplitude : 0 < m.amplitude) (hsize : 0 < size)
include hamplitude hsize

theorem slotBit_of_prefix {bit : Bool} (h : m.level size bit <+: xs.drop start) :
    slotBit xs size start = bit := by
  have hpos : 0 < m.amplitude.toInt := Int32.lt_iff_toInt_lt.1 hamplitude
  have hmiddle : size / 2 < (m.level size bit).length := by
    rw [Modulator.level, List.length_replicate]
    omega
  have hsample : xs.getD (start + size / 2) 0 = tone m.amplitude bit := by
    rw [getD_of_prefix_drop h hmiddle]
    exact List.getElem_replicate _
  have hsign : tone m.amplitude bit < 0 ↔ bit = true := by
    rw [Int32.lt_iff_toInt_lt, tone_toInt hpos, Int32.toInt_zero]
    cases bit <;> simp <;> omega
  rw [slotBit, hsample]
  exact Bool.eq_iff_iff.2 (decide_eq_true_iff.trans hsign)

theorem slotBits_of_prefix {bits : List Bool} (h : bits.flatMap (m.level size) <+: xs.drop start) :
    ((List.range bits.length).map fun k ↦ slotBit xs size (start + k * size)) = bits := by
  induction bits generalizing start with
  | nil => rfl
  | cons bit bits ih =>
    rw [List.flatMap_cons] at h
    have hfirst := slotBit_of_prefix hamplitude hsize ((List.prefix_append _ _).trans h)
    have hrest := ih (prefix_drop_add h)
    rw [Modulator.level, List.length_replicate] at hrest
    have hnext : ∀ k, start + (k + 1) * size = start + size + k * size := by
      intro k
      ring
    simp only [List.length_cons, List.range_succ_eq_map, List.map_cons, List.map_map, Function.comp_def,
      Nat.zero_mul, Nat.add_zero, Nat.succ_eq_add_one, hnext, hfirst, hrest]

theorem slotByte_of_prefix {b : UInt8} (h : m.byteSamples size b <+: xs.drop start) :
    slotByte xs size start = some b := by
  have hbits := slotBits_of_prefix hamplitude hsize h
  rw [LineCode.length_sent] at hbits
  rw [slotByte, hbits, LineCode.gather_sent, LineCode.decode_encode]

omit hamplitude hsize in
theorem length_byteSamples (b : UInt8) : (m.byteSamples size b).length = LineCode.wordBits * size := by
  rw [Modulator.byteSamples_eq, List.length_map, length_byteBits]

theorem slotBytes_of_prefix {bs : List UInt8} (h : bs.flatMap (m.byteSamples size) <+: xs.drop start) :
    slotBytes xs size start bs.length = some bs := by
  induction bs generalizing start with
  | nil => rfl
  | cons b bs ih =>
    rw [List.flatMap_cons] at h
    have hfirst := slotByte_of_prefix hamplitude hsize ((List.prefix_append _ _).trans h)
    have hrest := prefix_drop_add h
    rw [length_byteSamples] at hrest
    simp only [List.length_cons, slotBytes, hfirst, ih hrest]
    rfl

end

namespace Modulator

variable {payload : List UInt8} {j : ℕ}

theorem length_frame (m : Modulator) (header : FrameHeader) (payload : List UInt8) :
    (m.frame header payload).length = m.frameSamples payload.length := by
  rw [← m.length_frameBits header payload, frame_eq]
  simp only [List.length_append, List.length_map, List.length_replicate]
  omega

theorem frameSamples_pos (m : Modulator) (hsize : 0 < m.size) (len : ℕ) : 0 < m.frameSamples len := by
  have hcheck : 0 < (len + 1) * LineCode.wordBits * m.size :=
    Nat.mul_pos (Nat.mul_pos len.succ_pos (by decide)) hsize
  rw [frameSamples]
  omega

theorem frameSamples_mono (m : Modulator) : Monotone m.frameSamples := by
  intro k n hkn
  unfold frameSamples
  gcongr

theorem readFrame_frame (count : ℕ) (hamplitude : 0 < m.amplitude) (hsize : 0 < m.size)
    (hheader : 0 < m.headerSize) (hne : payload ≠ []) (hle : payload.length ≤ 127) (hj : j < 256) :
    m.readFrame count j (m.frame (frameAt count j payload).1 payload) = some payload := by
  obtain ⟨h, hh⟩ : ∃ h, (frameAt count j payload).1 = h := ⟨_, rfl⟩
  have hbytes : h.size.toNat = payload.length := hh ▸ toNat_ofSize hle _ _
  have hpos := List.length_pos_iff.2 hne
  obtain ⟨first, hfirst, hparse⟩ := FrameHeader.parse_bytes (h := h) (by omega) (by omega)
  have hlength := m.length_frame h payload
  rw [hh]
  -- each part of the frame follows the one before it
  generalize hxs : m.frame h payload = xs at hlength ⊢
  have hall : m.preamble ++ (m.byteSamples m.headerSize first ++ (m.byteSamples m.headerSize h.index ++
      (payload.flatMap (m.byteSamples m.size) ++ (m.byteSamples m.size (m.crc.checksum payload) ++
        List.replicate m.interval 0)))) <+: xs.drop 0 := by
    rw [← hxs, frame, hfirst]
    simp
  have hone := prefix_drop_add hall
  have htwo := prefix_drop_add hone
  have hpayload := prefix_drop_add htwo
  have hcheck := prefix_drop_add hpayload
  simp only [length_byteSamples, List.length_flatMap, List.map_const', List.sum_replicate, smul_eq_mul,
    Nat.zero_add] at hone htwo hpayload hcheck
  have hbyte := slotByte_of_prefix hamplitude hheader ((List.prefix_append _ _).trans hone)
  have hindex := slotByte_of_prefix hamplitude hheader ((List.prefix_append _ _).trans htwo)
  have hdata := slotBytes_of_prefix hamplitude hsize ((List.prefix_append _ _).trans hpayload)
  have hsum := slotByte_of_prefix hamplitude hsize ((List.prefix_append _ _).trans hcheck)
  have htwice : m.preamble.length + 2 * (LineCode.wordBits * m.headerSize) =
      m.preamble.length + LineCode.wordBits * m.headerSize + LineCode.wordBits * m.headerSize := by ring
  have hlast : h.isLast = decide (j + 1 = count) := by rw [← hh]; rfl
  have hplace : h.index.toNat = j := by
    rw [← hh]
    exact UInt8.toNat_ofNat_of_lt' hj
  simp only [readFrame, htwice, hbyte, hindex, hparse, hbytes, hdata, hsum, hlength, hlast, hplace,
    Except.toOption, Option.bind_eq_bind, Option.bind_some, and_self, if_true]

def soundFrom (m : Modulator) (count : ℕ) : ℕ → List (List UInt8) → List Sample
  | _, [] => []
  | j, part :: parts => m.frame (frameAt count j part).1 part ++ m.soundFrom count (j + 1) parts

theorem flatMap_frameAt (m : Modulator) (count j : ℕ) (parts : List (List UInt8)) :
    ((parts.mapIdx fun i ↦ frameAt count (j + i)).flatMap fun (header, part) ↦ m.frame header part) =
      m.soundFrom count j parts := by
  induction parts generalizing j with
  | nil => rfl
  | cons part parts ih =>
    rw [mapIdx_cons_add (frameAt count), List.flatMap_cons, ih]
    rfl

theorem sound_eq_soundFrom (m : Modulator) (bytes : List UInt8) :
    m.sound bytes =
      m.soundFrom (chunks m.bytesPerFrame bytes).length 0 (chunks m.bytesPerFrame bytes) := by
  rw [← flatMap_frameAt]
  simp only [Nat.zero_add]
  rfl

theorem length_soundFrom (m : Modulator) (count j : ℕ) (parts : List (List UInt8)) :
    (m.soundFrom count j parts).length = (parts.map fun part ↦ m.frameSamples part.length).sum := by
  induction parts generalizing j with
  | nil => rfl
  | cons part parts ih =>
    rw [soundFrom, List.length_append, length_frame, ih, List.map_cons, List.sum_cons]

variable {parts : List (List UInt8)}

theorem prefix_drop_soundFrom (count : ℕ) {n i : ℕ} {part : List UInt8}
    (hfull : ∀ q ∈ parts.dropLast, q.length = n) (hi : parts[i]? = some part) :
    m.frame (frameAt count (j + i) part).1 part <+:
      (m.soundFrom count j parts).drop (i * m.frameSamples n) := by
  induction parts generalizing i j with
  | nil => cases hi
  | cons q parts ih =>
    cases i with
    | zero =>
      obtain rfl : q = part := Option.some.inj hi
      rw [soundFrom, Nat.zero_mul, List.drop_zero]
      exact List.prefix_append _ _
    | succ i =>
      -- another frame follows, and so the first is a whole one
      obtain ⟨hq, hrest⟩ := forall_mem_dropLast_cons hfull
      rw [List.getElem?_cons_succ] at hi
      have hne : parts ≠ [] := by
        rintro rfl
        cases hi
      have hlength := m.length_frame (frameAt count j q).1 q
      rw [hq hne] at hlength
      have hplace : (i + 1) * m.frameSamples n =
          (m.frame (frameAt count j q).1 q).length + i * m.frameSamples n := by
        rw [hlength]
        ring
      rw [soundFrom, hplace, ← List.drop_drop, List.drop_left, ← Nat.add_assoc, Nat.add_right_comm]
      exact ih hrest hi

theorem readFrames_soundFrom (count : ℕ) {n : ℕ} (hamplitude : 0 < m.amplitude) (hsize : 0 < m.size)
    (hheader : 0 < m.headerSize) (hn : n ≤ 127) (hparts : ∀ q ∈ parts, q ≠ [] ∧ q.length ≤ n)
    (hfull : ∀ q ∈ parts.dropLast, q.length = n) (hmax : j + parts.length ≤ 256) :
    (chunks (m.frameSamples n) (m.soundFrom count j parts)).length = parts.length ∧
      m.readFrames count j (chunks (m.frameSamples n) (m.soundFrom count j parts)) =
        some parts.flatten := by
  induction parts generalizing j with
  | nil =>
    rw [soundFrom, chunks_nil]
    exact ⟨rfl, rfl⟩
  | cons part parts ih =>
    obtain ⟨hpart, hparts⟩ := List.forall_mem_cons.1 hparts
    obtain ⟨hwhole, hfull⟩ := forall_mem_dropLast_cons hfull
    rw [List.length_cons] at hmax
    have hread := readFrame_frame (j := j) count hamplitude hsize hheader hpart.1
      (hpart.2.trans hn) (by omega)
    have hlength := m.length_frame (frameAt count j part).1 part
    rw [soundFrom]
    generalize m.frame (frameAt count j part).1 part = frame at hread hlength ⊢
    have hne : frame ≠ [] := by
      rw [← List.length_pos_iff, hlength]
      exact m.frameSamples_pos hsize part.length
    have hle : frame.length ≤ m.frameSamples n := hlength.le.trans (m.frameSamples_mono hpart.2)
    have hcut : chunks (m.frameSamples n) (frame ++ m.soundFrom count (j + 1) parts) =
        frame :: chunks (m.frameSamples n) (m.soundFrom count (j + 1) parts) := by
      by_cases hlast : parts = []
      · rw [hlast, soundFrom, List.append_nil, chunks_nil, chunks_of_length_le hne hle]
      · have hdvd : m.frameSamples n ∣ frame.length := by rw [hlength, hwhole hlast]
        rw [chunks_append hdvd, chunks_of_length_le hne hle, List.singleton_append]
    obtain ⟨hcount, hrest⟩ := ih (j := j + 1) hparts hfull (by omega)
    rw [hcut, List.length_cons, hcount, readFrames, hread, hrest]
    exact ⟨rfl, rfl⟩

theorem read_sound {bytes : List UInt8} (hpos : 0 < m.bytesPerFrame) (hle : m.bytesPerFrame ≤ 127)
    (hmax : bytes.length ≤ maxFrames * m.bytesPerFrame) (hamplitude : 0 < m.amplitude)
    (hsize : 0 < m.size) (hheader : 0 < m.headerSize) : m.read (m.sound bytes) = some bytes := by
  have hcount : 0 + (chunks m.bytesPerFrame bytes).length ≤ 256 := by
    rw [Nat.zero_add]
    exact length_chunks_le hpos hmax
  obtain ⟨hlength, hread⟩ := readFrames_soundFrom
    (chunks m.bytesPerFrame bytes).length hamplitude hsize hheader hle
    (fun _ ↦ mem_chunks) (fun _ ↦ length_of_mem_dropLast_chunks) hcount
  rw [sound_eq_soundFrom, read, hlength, hread, flatten_chunks hpos]

theorem modulate_eq_ok_iff {bytes : List UInt8} {sound : List Sample} :
    m.modulate bytes = .ok sound ↔
      0 < m.bytesPerFrame ∧ bytes.length ≤ maxFrames * m.bytesPerFrame ∧ m.sound bytes = sound := by
  by_cases hpos : 0 < m.bytesPerFrame
  · by_cases hmax : bytes.length ≤ maxFrames * m.bytesPerFrame
    · rw [modulate_eq hpos hmax]
      simp [hpos, hmax]
    · have hcount := mt (chunkCount_le_iff hpos maxFrames bytes.length).1 hmax
      rw [modulate, frameCount, if_neg hpos.ne']
      simp only [not_le.1 hcount, if_true, hmax, false_and, and_false, iff_false]
      intro h
      cases h
  · rw [modulate, frameCount, if_pos (Nat.eq_zero_of_not_pos hpos)]
    refine iff_of_false (fun h ↦ ?_) fun h ↦ hpos h.1
    cases h

theorem modulate_eq_fail_iff {bytes : List UInt8} (hpos : 0 < m.bytesPerFrame) :
    m.modulate bytes = .fail (.payloadTooLarge bytes.length) ↔
      maxFrames * m.bytesPerFrame < bytes.length := by
  rw [← not_le, ← chunkCount_le_iff hpos, not_le, modulate, frameCount, if_neg hpos.ne']
  by_cases hcount : maxFrames < chunkCount m.bytesPerFrame bytes.length
  · simp only [hcount, if_true]
  · simp only [hcount, if_false, iff_false]
    intro h
    cases h

theorem body_prefix_drop_sound {bytes part : List UInt8} {i : ℕ}
    (hi : (chunks m.bytesPerFrame bytes)[i]? = some part) :
    let body := (m.frameBits (frameAt (chunks m.bytesPerFrame bytes).length i part).1 part).map
      (tone m.amplitude)
    (m.preamble ++ body ++ List.replicate m.interval 0).length = m.frameSamples part.length ∧
      m.preamble ++ body ++ List.replicate m.interval 0 <+:
        (m.sound bytes).drop (i * m.frameSamples m.bytesPerFrame) := by
  intro body
  have hframe := prefix_drop_soundFrom (m := m) (j := 0) (chunks m.bytesPerFrame bytes).length
    (fun _ ↦ length_of_mem_dropLast_chunks) hi
  have hlength := m.length_frame (frameAt (chunks m.bytesPerFrame bytes).length i part).1 part
  rw [Nat.zero_add, ← sound_eq_soundFrom] at hframe
  rw [frame_eq, ← List.append_assoc] at hframe hlength
  exact ⟨hlength, hframe⟩

/-- A packet is refused if and only if it takes more than 256 frames. The samples of any other are as many
as its frames take; each of them begins with the preamble where so many whole frames end and ends in
silence; and where a bit has samples and a level, one from the middle of each slot gives the packet back,
so that no other packet has the same samples. -/
theorem lays_out_frames (m : Modulator) (hpos : 0 < m.bytesPerFrame) (hle : m.bytesPerFrame ≤ 127)
    (bytes : List UInt8) :
    (m.modulate bytes = .fail (.payloadTooLarge bytes.length) ↔
      maxFrames * m.bytesPerFrame < bytes.length) ∧
    (bytes.length ≤ maxFrames * m.bytesPerFrame → ∃ sound, m.modulate bytes = .ok sound ∧
      sound.length = ((chunks m.bytesPerFrame bytes).map fun part ↦ m.frameSamples part.length).sum ∧
      (∀ i part, (chunks m.bytesPerFrame bytes)[i]? = some part → ∃ body,
        (m.preamble ++ body ++ List.replicate m.interval 0).length = m.frameSamples part.length ∧
        m.preamble ++ body ++ List.replicate m.interval 0 <+:
          sound.drop (i * m.frameSamples m.bytesPerFrame)) ∧
      (0 < m.amplitude → 0 < m.size → 0 < m.headerSize →
        m.read sound = some bytes ∧ ∀ other, m.modulate other = .ok sound → other = bytes)) := by
  refine ⟨modulate_eq_fail_iff hpos, fun hmax ↦ ⟨m.sound bytes, modulate_eq hpos hmax, ?_, ?_, ?_⟩⟩
  · rw [sound_eq_soundFrom, length_soundFrom]
  · intro i part hi
    exact ⟨_, body_prefix_drop_sound hi⟩
  · intro hamplitude hsize hheader
    have hread := read_sound hpos hle hmax hamplitude hsize hheader
    refine ⟨hread, fun other hother ↦ ?_⟩
    obtain ⟨-, hmax', hsound⟩ := modulate_eq_ok_iff.1 hother
    have hread' := read_sound hpos hle hmax' hamplitude hsize hheader
    rw [hsound, hread] at hread'
    exact (Option.some.inj hread').symm

theorem lays_out_frames_short_last :
    let m := Config.Phy.modulator { bytesPerFrame := 2, carrier := { size := 2 } }
    (0 < m.bytesPerFrame ∧ m.bytesPerFrame ≤ 127 ∧ 0 < m.amplitude ∧ 0 < m.size ∧ 0 < m.headerSize) ∧
      ∃ sound, m.modulate [1, 2, 3] = .ok sound ∧ sound.length = m.frameSamples 2 + m.frameSamples 1 ∧
        m.read sound = some [1, 2, 3] := by
  intro m
  have hpos : 0 < m.bytesPerFrame := by decide
  have hle : m.bytesPerFrame ≤ 127 := by decide
  have hamplitude : 0 < m.amplitude := by decide +kernel
  have hsize : 0 < m.size := by decide
  have hheader : 0 < m.headerSize := by decide
  obtain ⟨-, haccepted⟩ := lays_out_frames m hpos hle [1, 2, 3]
  obtain ⟨sound, hsound, hlength, -, hread⟩ := haccepted (by decide)
  exact ⟨⟨hpos, hle, hamplitude, hsize, hheader⟩, sound, hsound, hlength.trans (by decide +kernel),
    (hread hamplitude hsize hheader).1⟩

end Modulator

end SoundLink
