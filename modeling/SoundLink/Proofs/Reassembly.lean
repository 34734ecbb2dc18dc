import SoundLink.Mac.Station
import SoundLink.Proofs.Chunks

namespace SoundLink

namespace SourceState

def acceptAll (s : SourceState) : List (MacHeader × List UInt8) → SourceState × List Acceptance
  | [] => (s, [])
  | f :: rest =>
    let (s, a) := s.accept f.1 f.2
    let (s, as) := s.acceptAll rest
    (s, a :: as)

end SourceState

namespace Reassembler

def acceptAll (r : Reassembler) : List (MacHeader × List UInt8) → Reassembler × List Acceptance
  | [] => (r, [])
  | f :: rest =>
    let (r, a) := r.accept f.1 f.2
    let (r, as) := r.acceptAll rest
    (r, a :: as)

theorem acceptAll_snd (r : Reassembler) {i : Fin 8} {frames : List (MacHeader × List UInt8)}
    (h : ∀ f ∈ frames, slot f.1.source = i) :
    (r.acceptAll frames).2 = (r.sources[i].acceptAll frames).2 := by
  induction frames generalizing r with
  | nil => rfl
  | cons f frames ih =>
    obtain ⟨header, part⟩ := f
    obtain rfl : slot header.source = i := h _ List.mem_cons_self
    have htail := ih (r.accept header part).1 fun f hf ↦ h f (List.mem_cons_of_mem _ hf)
    simp only [acceptAll, SourceState.acceptAll, htail]
    simp [accept]

end Reassembler

def MacHeader.frameAt (source destination : UInt8) (count j : ℕ) (part : List UInt8) :
    MacHeader × List UInt8 :=
  (.data source destination (UInt8.ofNat j) (j + 1 = count), part)

theorem Station.frames_eq (s : Station) (destination : UInt8) (payload : List UInt8) :
    s.frames destination payload = (chunks s.bytesPerFrame payload).mapIdx
      (MacHeader.frameAt s.address destination (chunks s.bytesPerFrame payload).length) := rfl

theorem Station.length_frames {s : Station} (hs : 0 < s.bytesPerFrame) (destination : UInt8)
    (payload : List UInt8) :
    (s.frames destination payload).length = chunkCount s.bytesPerFrame payload.length := by
  rw [frames_eq, List.length_mapIdx, length_chunks hs]

namespace SourceState

variable {count j : ℕ} {part : List UInt8} {s : SourceState}

theorem accept_frameAt (source destination : UInt8) (hexpected : s.expected = UInt8.ofNat j) :
    s.accept (MacHeader.frameAt source destination count j part).1 part =
      SourceState.take { s with held := if j % 256 = 0 then [] else s.held }
        (MacHeader.frameAt source destination count j part).1 part := by
  have hzero : UInt8.ofNat j = 0 ↔ j % 256 = 0 := by
    rw [← UInt8.toNat_inj, UInt8.toNat_ofNat']
    rfl
  obtain ⟨expected, held, lastTaken⟩ := s
  obtain rfl : expected = UInt8.ofNat j := hexpected
  simp only [accept, MacHeader.frameAt, MacHeader.data, hzero]
  by_cases hj : j % 256 = 0
  · by_cases hheld : held = [] <;> simp [hj, hheld]
  · simp [hj]

theorem acceptAll_frames (source destination : UInt8) {parts : List (List UInt8)}
    (hcount : j + parts.length = count) (hne : parts ≠ [])
    (hexpected : s.expected = UInt8.ofNat j) :
    (s.acceptAll (parts.mapIdx fun i ↦ MacHeader.frameAt source destination count (j + i))).2 =
      List.replicate (parts.length - 1) (.accepted none) ++
        [.accepted (some (if j ≤ (count - 1) / 256 * 256 then
          (parts.drop ((count - 1) / 256 * 256 - j)).flatten
          else s.held ++ parts.flatten))] := by
  induction parts generalizing s j with
  | nil => exact absurd rfl hne
  | cons part parts ih =>
    rw [List.length_cons] at hcount
    have htaken : s.accept (MacHeader.frameAt source destination count j part).1
        (MacHeader.frameAt source destination count j part).2 = _ :=
      accept_frameAt source destination hexpected
    rw [mapIdx_cons_add (MacHeader.frameAt source destination count), acceptAll, htaken]
    cases parts with
    | nil =>
      have hlast : (MacHeader.frameAt source destination count j part).1.isLast = true := by
        simp [MacHeader.frameAt, MacHeader.data, ← hcount]
      have hstart : j % 256 = 0 ↔ j ≤ (count - 1) / 256 * 256 := by simp at hcount; omega
      simp only [take, hlast, if_true, List.mapIdx_nil, acceptAll, hstart]
      by_cases hj : j ≤ (count - 1) / 256 * 256
      · simp [hj, show (count - 1) / 256 * 256 - j = 0 by simp at hcount; omega]
      · simp [hj]
    | cons next parts =>
      have hlast : (MacHeader.frameAt source destination count j part).1.isLast = false := by
        simp [MacHeader.frameAt, MacHeader.data, ← hcount]
      have hnext : (MacHeader.frameAt source destination count j part).1.index + 1 =
          UInt8.ofNat (j + 1) := by
        simp [MacHeader.frameAt, MacHeader.data, UInt8.ofNat_add]
      simp only [take, hlast, Bool.false_eq_true, if_false]
      rw [ih (by omega) (List.cons_ne_nil _ _) hnext]
      simp only [List.length_cons] at hcount ⊢
      rw [Nat.add_sub_cancel, Nat.add_sub_cancel, List.replicate_succ, List.cons_append]
      congr 4
      -- whether index 0 comes again after this frame, with it, or has come for the last time
      obtain hj | hj | hj := lt_trichotomy j ((count - 1) / 256 * 256)
      · rw [if_pos (by omega), if_pos (by omega),
          show (count - 1) / 256 * 256 - j = (count - 1) / 256 * 256 - (j + 1) + 1 by omega,
          List.drop_succ_cons]
      · rw [if_neg (by omega), if_pos (by omega), if_pos (by omega), ← hj, Nat.sub_self]
        simp
      · rw [if_neg (by omega), if_neg (by omega), if_neg (by omega)]
        simp

end SourceState

/-- A frame that comes again changes nothing, and is acknowledged again. -/
def SourceState.Recognises (s : SourceState) (h : MacHeader) (part : List UInt8) : Prop :=
  h.index ≠ s.expected ∧ (s.accept h part = (s, .duplicate) ∨ s.accept h part = (s, .accepted none))

theorem SourceState.accept_of_expected {s : SourceState} {h : MacHeader}
    (hindex : h.index = s.expected) (hheld : h.index = 0 → s.held = []) (part : List UInt8) :
    s.accept h part = s.take h part := by
  have hfresh : ¬(h.index = 0 ∧ s.held ≠ []) := fun ⟨h₀, h₁⟩ ↦ h₁ (hheld h₀)
  rw [accept, if_neg hfresh, if_pos hindex]

theorem SourceState.take_of_last {s : SourceState} {h : MacHeader} (hlast : h.isLast = true)
    (part : List UInt8) :
    s.take h part = (⟨0, [], some h.index⟩, .accepted (some (s.held ++ part))) := by
  rw [take, if_pos hlast]

theorem SourceState.take_of_not_last {s : SourceState} {h : MacHeader} (hlast : h.isLast = false)
    (part : List UInt8) :
    s.take h part = (⟨h.index + 1, s.held ++ part, some h.index⟩, .accepted none) := by
  rw [take, if_neg (by simp [hlast])]

/-- What was taken is recognised, unless it was a payload of a single frame. -/
theorem SourceState.recognises_take {s : SourceState} {h : MacHeader} {part : List UInt8}
    (hne : part ≠ []) (hheld : h.index = 0 → s.held = [])
    (hsingle : ¬(h.index = 0 ∧ h.isLast = true)) :
    (s.take h part).1.Recognises h part := by
  have hsucc : h.index ≠ h.index + 1 := by
    intro he
    have htoNat := congrArg UInt8.toNat he
    have hlt := h.index.toNat_lt
    rw [UInt8.toNat_add] at htoNat
    simp at htoNat
    omega
  cases hlast : h.isLast with
  | false =>
    rw [take_of_not_last hlast]
    refine ⟨hsucc, ?_⟩
    by_cases hzero : h.index = 0
    · right
      simp [accept, take, hlast, hzero, hne, hheld hzero]
    · left
      simp [accept, hzero, hsucc]
  | true =>
    have hzero : h.index ≠ 0 := fun hzero ↦ hsingle ⟨hzero, hlast⟩
    rw [take_of_last hlast]
    exact ⟨hzero, .inl (by simp [accept, hzero])⟩

/-- The bytes before the last frame with index 0. -/
def lost (n len : ℕ) : ℕ := (chunkCount n len - 1) / maxFrames * maxFrames * n

theorem lost_eq_zero_iff {n : ℕ} (hn : 0 < n) (len : ℕ) : lost n len = 0 ↔ len ≤ maxFrames * n := by
  rw [← chunkCount_le_iff hn, lost, maxFrames]
  simp [hn.ne']
  omega

theorem lost_lt {n len : ℕ} (hn : 0 < n) (hlen : 0 < len) : lost n len < len := by
  rw [lost, maxFrames]
  have hcount : chunkCount n len - 1 < chunkCount n len := by
    have := (chunkCount_le_iff hn 0 len).not.2 (by omega)
    omega
  have h : ¬len ≤ (chunkCount n len - 1) * n := (chunkCount_le_iff hn _ len).not.1 (by omega)
  have h' : (chunkCount n len - 1) / 256 * 256 * n ≤ (chunkCount n len - 1) * n :=
    Nat.mul_le_mul_right _ (Nat.div_mul_le_self _ _)
  omega

variable {s : Station} {payload : List UInt8}

/-- Every frame of a payload is taken; the last one hands out what is not lost of it. -/
theorem Reassembler.acceptAll_frames (hs : 0 < s.bytesPerFrame) (hne : payload ≠ [])
    (destination : UInt8) :
    (Reassembler.empty.acceptAll (s.frames destination payload)).2 =
      List.replicate (chunkCount s.bytesPerFrame payload.length - 1) (.accepted none) ++
        [.accepted (some (payload.drop (lost s.bytesPerFrame payload.length)))] := by
  have hsource : ∀ f ∈ s.frames destination payload, slot f.1.source = slot s.address := by
    intro f hf
    rw [Station.frames_eq] at hf
    obtain ⟨i, hi, rfl⟩ := List.mem_mapIdx.1 hf
    rfl
  have hempty : Reassembler.empty.sources[slot s.address] = {} := by simp [Reassembler.empty]
  have hall := SourceState.acceptAll_frames (s := {}) s.address destination (j := 0)
    (Nat.zero_add _) (chunks_ne_nil hs hne) rfl
  rw [acceptAll_snd _ hsource, hempty, Station.frames_eq]
  simp only [Nat.zero_add] at hall
  rw [hall, if_pos (Nat.zero_le _), Nat.sub_zero, drop_chunks hs, flatten_chunks hs,
    length_chunks hs, lost, maxFrames]

/-- A payload comes out whole exactly if one byte numbers its frames. -/
theorem Reassembler.acceptAll_frames_eq_iff (s : Station) (destination : UInt8)
    (payload : List UInt8) (hs : 0 < s.bytesPerFrame) (hne : payload ≠ []) :
    (Reassembler.empty.acceptAll (s.frames destination payload)).2 =
        List.replicate ((s.frames destination payload).length - 1) (.accepted none) ++
          [.accepted (some payload)] ↔
      payload.length ≤ maxFrames * s.bytesPerFrame := by
  have hlen : (s.frames destination payload).length =
      chunkCount s.bytesPerFrame payload.length := by
    rw [Station.frames_eq, List.length_mapIdx, length_chunks hs]
  have hlost := lost_lt hs (List.length_pos_iff.2 hne)
  rw [acceptAll_frames hs hne, hlen, ← lost_eq_zero_iff hs]
  simp only [List.append_cancel_left_eq, List.cons.injEq, Acceptance.accepted.injEq,
    Option.some.injEq, and_true]
  constructor
  · intro hdrop
    have hlength := congrArg List.length hdrop
    rw [List.length_drop] at hlength
    omega
  · intro hzero
    rw [hzero, List.drop_zero]

theorem Reassembler.acceptAll_frames_three_bytes :
    (Reassembler.empty.acceptAll ((Station.ofConfig { bytesPerFrame := 2 }).frames 1 [1, 2, 3])).2 =
      List.replicate (((Station.ofConfig { bytesPerFrame := 2 }).frames 1 [1, 2, 3]).length - 1)
        (.accepted none) ++
        [.accepted (some [1, 2, 3])] :=
  (Reassembler.acceptAll_frames_eq_iff (Station.ofConfig { bytesPerFrame := 2 }) 1 [1, 2, 3]
    (by decide) (by decide)).2 (by decide)

/-- The frame after the 256th has index 0 again and drops those before it. -/
theorem Reassembler.acceptAll_frames_257 :
    (Reassembler.empty.acceptAll
      ((Station.ofConfig { bytesPerFrame := 1 }).frames 1 (List.replicate 257 0))).2 ≠
      List.replicate 256 (.accepted none) ++ [.accepted (some (List.replicate 257 0))] := by
  rw [acceptAll_frames (by decide) (by decide) 1]
  decide +kernel

end SoundLink
