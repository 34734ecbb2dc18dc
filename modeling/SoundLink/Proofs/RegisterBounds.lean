import SoundLink.Proofs.Provenance
import SoundLink.Proofs.Recovery

namespace SoundLink

namespace SearchRegisters

variable {f : MatchedFilter} {r : SearchRegisters}

structure Paired (f : MatchedFilter) (r : SearchRegisters) : Prop where
  length_window : r.window.length ≤ f.span
  best_pos : r.candidate ≠ none → 0 < r.best
  of_none : r.candidate = none → r.best = 0 ∧ r.kept = []

theorem paired_clear (f : MatchedFilter) : clear.Paired f :=
  ⟨Nat.zero_le _, fun hsome ↦ absurd rfl hsome, fun _ ↦ ⟨rfl, rfl⟩⟩

theorem Paired.best_nonneg (h : r.Paired f) : 0 ≤ r.best := by
  by_cases hnone : r.candidate = none
  · rw [(h.of_none hnone).1]
    exact Int32.le_refl 0
  · exact Int32.le_of_lt (h.best_pos hnone)

theorem Paired.compare (h : r.Paired f) (threshold power : Fixed) (s : Sample) :
    (r.compare threshold power s).Paired f := by
  unfold SearchRegisters.compare
  split
  · rename_i hbest
    exact ⟨h.length_window, fun _ ↦ Int32.lt_of_le_of_lt h.best_nonneg hbest.1, nofun⟩
  · split
    · rename_i c hc
      refine ⟨h.length_window, fun _ ↦ h.best_pos ?_, nofun⟩
      rw [hc]
      exact Option.some_ne_none c
    · exact ⟨h.length_window, h.best_pos, h.of_none⟩

theorem Paired.push (h : r.Paired f) (threshold : Fixed) (s : Sample) :
    (r.push f threshold s).Paired f := by
  have hwindow : Paired f { r with window := (s :: r.window).take f.span } :=
    ⟨List.length_take_le _ _, h.best_pos, h.of_none⟩
  unfold SearchRegisters.push
  dsimp only
  split
  · exact hwindow
  · exact hwindow.compare threshold _ s

end SearchRegisters

namespace Slicer

/-- A codeword that is not complete has no bits above those that have been read. -/
structure Incomplete (r : Slicer) : Prop where
  bits_lt : r.bits < LineCode.wordBits
  codeword_lt : r.codeword.toNat < 2 ^ r.bits

theorem incomplete_start (last phase : Fixed) : (start last phase).Incomplete :=
  ⟨Nat.zero_lt_succ 9, Nat.one_pos⟩

theorem toNat_or_shiftLeft_lt {code : UInt16} {n : ℕ} (hn : n < LineCode.wordBits)
    (hcode : code.toNat < 2 ^ n) : (code ||| 1 <<< UInt16.ofNat n).toNat < 2 ^ (n + 1) := by
  have hn : n < 10 := hn
  have hshift : (1 <<< UInt16.ofNat n : UInt16).toNat < 2 ^ (n + 1) := by
    interval_cases n <;> decide
  rw [UInt16.toNat_or]
  exact Nat.or_lt_two_pow (hcode.trans (Nat.pow_lt_pow_right one_lt_two n.lt_succ_self)) hshift

theorem Incomplete.push {r : Slicer} (h : r.Incomplete) (size : ℕ) (s : Sample) :
    (r.push size s).1.Incomplete := by
  unfold Slicer.push
  dsimp only
  split
  · exact ⟨h.bits_lt, h.codeword_lt⟩
  · split
    · rename_i hmore
      refine ⟨hmore, ?_⟩
      dsimp only
      split
      · exact toNat_or_shiftLeft_lt h.bits_lt h.codeword_lt
      · exact h.codeword_lt.trans (Nat.pow_lt_pow_right one_lt_two (Nat.lt_succ_self _))
    · exact incomplete_start _ _

end Slicer

namespace Registers

/-- The frames that a packet has when the last of them has that index. -/
def framesUpTo (lastIndex : Option UInt8) : ℕ := (lastIndex.map fun i ↦ i.toNat + 1).getD 0

/-- A header that has been accepted after as many frames of the packet as its index says. -/
structure Announced (header : Option FrameHeader) (packet : List UInt8) (h : FrameHeader) : Prop where
  header_eq : header = some h
  size_le : h.size.toNat ≤ 127
  length_packet : packet.length ≤ h.index.toNat * 127

structure Tallied (r : Registers) : Prop where
  slicer : r.slicer.Incomplete
  length_headerBytes : r.headerBytes.length ≤ 1
  length_packet : r.mode = .search ∨ r.mode = .header → r.packet.length ≤ framesUpTo r.lastIndex * 127
  payload : r.mode = .payload → ∃ h, Announced r.header r.packet h ∧ r.chunk.length < h.size.toNat
  checksum : r.mode = .checksum → ∃ h, Announced r.header r.packet h ∧ r.chunk.length = h.size.toNat

variable {r : Registers}

theorem framesUpTo_le (lastIndex : Option UInt8) : framesUpTo lastIndex ≤ maxFrames := by
  cases lastIndex with
  | none => exact Nat.zero_le _
  | some i => exact i.toNat_lt

theorem tallied_new : new.Tallied :=
  ⟨Slicer.incomplete_start 0 0, Nat.zero_le _, fun _ ↦ Nat.zero_le _, nofun, nofun⟩

theorem tallied_abortPacket (h : r.slicer.Incomplete) : r.abortPacket.Tallied :=
  ⟨h, Nat.zero_le _, fun _ ↦ Nat.zero_le _, nofun, nofun⟩

theorem Tallied.read (h : r.Tallied) {slicer : Slicer} (hslicer : slicer.Incomplete)
    (search : SearchRegisters) : Tallied { r with slicer, search } :=
  ⟨hslicer, h.length_headerBytes, h.length_packet, h.payload, h.checksum⟩

theorem Tallied.length_packet_le (h : r.Tallied) : r.packet.length ≤ 256 * 127 := by
  have hannounced : ∀ header, Announced r.header r.packet header → r.packet.length ≤ 256 * 127 := by
    intro header hheader
    exact hheader.length_packet.trans (Nat.mul_le_mul_right 127 header.index.toNat_lt.le)
  have hframes : r.packet.length ≤ framesUpTo r.lastIndex * 127 → r.packet.length ≤ 256 * 127 :=
    fun hle ↦ hle.trans (Nat.mul_le_mul_right 127 (framesUpTo_le _))
  cases hmode : r.mode with
  | search => exact hframes (h.length_packet (.inl hmode))
  | header => exact hframes (h.length_packet (.inr hmode))
  | payload =>
    obtain ⟨header, hheader, -⟩ := h.payload hmode
    exact hannounced header hheader
  | checksum =>
    obtain ⟨header, hheader, -⟩ := h.checksum hmode
    exact hannounced header hheader

end Registers

namespace Demodulator

open Registers

variable {d : Demodulator} {r r' : Registers} {es : List Event} {b : UInt8} {s : Sample}

theorem framesUpTo_of_follows {lastIndex : Option UInt8} {index : UInt8}
    (h : follows lastIndex index = .ok ()) : index = 0 ∨ framesUpTo lastIndex = index.toNat := by
  unfold follows at h
  dsimp only at h
  split_ifs at h with hindex
  by_cases hzero : index = 0
  · exact .inl hzero
  · right
    have hnext := hindex.resolve_left hzero
    cases lastIndex with
    | none => exact absurd hnext hzero
    | some i =>
      have hsum : index = i + 1 := hnext
      have hlt := i.toNat_lt
      have hne : index.toNat ≠ 0 := fun hnat ↦ hzero (UInt8.toNat_inj.1 hnat)
      rw [hsum, UInt8.toNat_add] at hne ⊢
      change i.toNat + 1 = (i.toNat + 1) % 256
      change (i.toNat + 1) % 256 ≠ 0 at hne
      omega

theorem tallied_receiveHeader (h : r.Tallied) (hmode : r.mode = .header)
    (hreceive : receiveHeader r b = (r', .ok es)) : r'.Tallied := by
  unfold receiveHeader at hreceive
  dsimp only at hreceive
  split at hreceive
  · rename_i first second _ _
    split at hreceive
    · cases hreceive
    · rename_i header hparse
      split at hreceive
      · cases hreceive
      · rename_i hfollows
        cases hreceive
        refine ⟨h.slicer, Nat.zero_le _, nofun, fun _ ↦ ⟨header, ⟨rfl, ?_, ?_⟩, ?_⟩, nofun⟩
        · exact (FrameHeader.size_of_parse hparse).2
        · dsimp only
          split
          · exact Nat.zero_le _
          · rename_i hzero
            rw [← (framesUpTo_of_follows hfollows).resolve_left hzero]
            exact h.length_packet (.inr hmode)
        · exact (FrameHeader.size_of_parse hparse).1
  · rename_i hshort
    cases hreceive
    refine ⟨h.slicer, ?_, fun _ ↦ h.length_packet (.inr hmode), ?_, ?_⟩
    · match hbytes : r.headerBytes ++ [b] with
      | [] => exact Nat.zero_le _
      | [_] => exact le_rfl
      | first :: second :: rest => exact absurd hbytes (hshort first second rest)
    · exact fun hpayload ↦ absurd (hmode.symm.trans hpayload) (by decide)
    · exact fun hchecksum ↦ absurd (hmode.symm.trans hchecksum) (by decide)

theorem tallied_receivePayload (h : r.Tallied) (hmode : r.mode = .payload)
    (hreceive : d.receivePayload r b = (r', .ok es)) : r'.Tallied := by
  obtain ⟨header, ⟨heq, hsize, hpacket⟩, hchunk⟩ := h.payload hmode
  unfold receivePayload at hreceive
  simp only [heq, Option.map_some, Option.getD_some] at hreceive
  have hlength : (r.chunk ++ [b]).length = r.chunk.length + 1 := List.length_append
  split at hreceive
  · rename_i hfull
    cases hreceive
    exact ⟨h.slicer, h.length_headerBytes, nofun, nofun,
      fun _ ↦ ⟨header, ⟨rfl, hsize, hpacket⟩, by dsimp only; omega⟩⟩
  · rename_i hmore
    cases hreceive
    refine ⟨h.slicer, h.length_headerBytes, ?_, ?_, ?_⟩
    · exact fun hother ↦ absurd hother (by rw [hmode]; decide)
    · exact fun _ ↦ ⟨header, ⟨rfl, hsize, hpacket⟩, by dsimp only; omega⟩
    · exact fun hother ↦ absurd (hmode.symm.trans hother) (by decide)

theorem tallied_receiveChecksum (h : r.Tallied) (hmode : r.mode = .checksum)
    (hreceive : receiveChecksum r b = (r', .ok es)) : r'.Tallied := by
  obtain ⟨header, ⟨heq, hsize, hpacket⟩, hchunk⟩ := h.checksum hmode
  unfold receiveChecksum at hreceive
  simp only [heq] at hreceive
  split at hreceive
  · cases hreceive
  · split at hreceive
    · cases hreceive
      exact ⟨h.slicer, Nat.zero_le _, fun _ ↦ Nat.zero_le _, nofun, nofun⟩
    · cases hreceive
      refine ⟨h.slicer, Nat.zero_le _, fun _ ↦ ?_, nofun, nofun⟩
      have hframe : (r.packet ++ r.chunk).length ≤ (header.index.toNat + 1) * 127 := by
        rw [List.length_append]
        omega
      exact hframe

theorem tallied_receiveByte (h : r.Tallied) (hmode : r.mode ≠ .search)
    (hreceive : d.receiveByte r b = (r', .ok es)) : r'.Tallied := by
  unfold receiveByte at hreceive
  cases hstage : r.mode with
  | search => exact absurd hstage hmode
  | header =>
    rw [hstage] at hreceive
    exact tallied_receiveHeader h hstage hreceive
  | payload =>
    rw [hstage] at hreceive
    exact tallied_receivePayload h hstage hreceive
  | checksum =>
    rw [hstage] at hreceive
    exact tallied_receiveChecksum h hstage hreceive

/-- A sample of a frame keeps the tally, or fails with nothing but the slicer to be kept. -/
theorem tallied_extract (h : r.Tallied) (hmode : r.mode ≠ .search) (s : Sample) :
    (d.extract r s).1.slicer.Incomplete ∧ ∀ r' es, d.extract r s = (r', .ok es) → r'.Tallied := by
  unfold extract
  have hpush := h.slicer.push (if r.mode = .header then d.headerSize else d.size) s
  split <;> rename_i slicer codeword hslicer <;> rw [hslicer] at hpush
  · refine ⟨hpush, fun r' es heq ↦ ?_⟩
    cases heq
    exact h.read hpush r.search
  · split
    · exact ⟨hpush, fun _ _ heq ↦ absurd (congrArg Prod.snd heq) nofun⟩
    · rename_i byte _
      refine ⟨?_, fun r' es heq ↦ tallied_receiveByte (h.read hpush r.search) hmode heq⟩
      rw [(d.receiveByte_leaves _ _).2]
      exact hpush

theorem tallied_detect (h : r.Tallied) (hmode : r.mode = .search) (s : Sample) :
    (d.detect r s).1.Tallied := by
  unfold detect
  dsimp only
  split
  · refine ⟨Slicer.incomplete_start _ _, Nat.zero_le _, fun _ ↦ h.length_packet (.inl hmode), nofun, nofun⟩
  · exact h.read h.slicer _

theorem tallied_take (h : r.Tallied) (s : Sample) : (d.take r s).registers.Tallied := by
  by_cases hmode : r.mode = .search
  · rw [take, if_pos hmode]
    exact tallied_detect h hmode s
  · obtain ⟨hslicer, hok⟩ := tallied_extract (d := d) h hmode s
    rw [take, if_neg hmode]
    split <;> rename_i r' answer hextract
    · exact hok _ _ hextract
    · rw [hextract] at hslicer
      exact tallied_abortPacket hslicer

theorem paired_take (h : r.search.Paired d.filter) (s : Sample) :
    (d.take r s).registers.search.Paired d.filter := by
  unfold take
  split
  · unfold detect
    dsimp only
    split
    · exact SearchRegisters.paired_clear d.filter
    · exact h.push d.threshold s
  · have hsearch := d.search_extract r s
    split <;> rename_i hextract <;> rw [hextract] at hsearch
    · exact hsearch ▸ h
    · exact SearchRegisters.paired_clear d.filter

theorem Reachable.tallied (h : d.Reachable r) : r.Tallied := by
  induction h with
  | new => exact tallied_new
  | take s _ ih => exact tallied_take ih s
  | reset _ ih => exact tallied_abortPacket ih.slicer

theorem Reachable.paired (h : d.Reachable r) : r.search.Paired d.filter := by
  induction h with
  | new => exact SearchRegisters.paired_clear d.filter
  | take s _ ih => exact paired_take ih s
  | reset _ _ => exact SearchRegisters.paired_clear d.filter

structure WellFormed (d : Demodulator) (r : Registers) : Prop where
  length_window : r.search.window.length ≤ d.filter.span
  search_of_candidate : r.search.candidate ≠ none → r.mode = .search
  best_eq_zero_iff : r.search.best = 0 ↔ r.search.candidate = none
  kept_of_none : r.search.candidate = none → r.search.kept = []
  length_kept : r.search.candidate ≠ none →
    r.search.kept.length = r.search.distance + 1 ∧ r.search.distance + 1 ≤ d.filter.span
  bits_lt : r.slicer.bits < 10
  codeword_lt : r.slicer.codeword.toNat < 2 ^ r.slicer.bits
  length_headerBytes : r.headerBytes.length ≤ 1
  payload : r.mode = .payload → ∃ h, r.header = some h ∧ r.chunk.length < h.size.toNat
  checksum : r.mode = .checksum → ∃ h, r.header = some h ∧ r.chunk.length = h.size.toNat
  length_packet : r.packet.length ≤ 256 * 127

theorem Reachable.candidate (h : d.Reachable r) {c : Peak} (hc : r.search.candidate = some c) :
    r.mode = .search ∧ r.search.kept.length = r.search.distance + 1 ∧
      r.search.distance < d.filter.span := by
  obtain ⟨σ, hσ⟩ := h.shows
  have hframe : r.search ≠ .clear := by
    intro hclear
    rw [hclear] at hc
    cases hc
  cases hσ with
  | search hmode hsound hnone => exact ⟨hmode, hsound.length_kept c hc, hsound.distance_lt hnone c hc⟩
  | header _ hclear _ => exact absurd hclear hframe
  | payload _ hclear _ => exact absurd hclear hframe
  | checksum _ hclear _ => exact absurd hclear hframe

/-- Whatever a demodulator has taken, its registers are well formed, and a checksum that is received is never
that of a frame without a header. -/
theorem Reachable.well_formed (h : d.Reachable r) :
    d.WellFormed r ∧
      (r.mode = .checksum → ∀ b, (d.receiveByte r b).2 ≠ .error .emptyFrame) := by
  have hpaired := h.paired
  have htallied := h.tallied
  have hcandidate : r.search.candidate ≠ none → r.mode = .search ∧
      r.search.kept.length = r.search.distance + 1 ∧ r.search.distance < d.filter.span := by
    intro hsome
    obtain ⟨c, hc⟩ := Option.ne_none_iff_exists'.1 hsome
    exact h.candidate hc
  refine ⟨⟨hpaired.length_window, fun hsome ↦ (hcandidate hsome).1, ⟨fun hzero ↦ ?_, fun hnone ↦ ?_⟩,
    fun hnone ↦ (hpaired.of_none hnone).2, fun hsome ↦ (hcandidate hsome).2, htallied.slicer.bits_lt,
    htallied.slicer.codeword_lt, htallied.length_headerBytes, fun hmode ↦ ?_, fun hmode ↦ ?_,
    htallied.length_packet_le⟩, fun hmode b ↦ ?_⟩
  · by_contra hsome
    have hpos := hpaired.best_pos hsome
    rw [hzero] at hpos
    exact absurd hpos (by decide)
  · exact (hpaired.of_none hnone).1
  · obtain ⟨header, hheader, hchunk⟩ := htallied.payload hmode
    exact ⟨header, hheader.header_eq, hchunk⟩
  · obtain ⟨header, hheader, hchunk⟩ := htallied.checksum hmode
    exact ⟨header, hheader.header_eq, hchunk⟩
  · obtain ⟨header, hheader, -⟩ := htallied.checksum hmode
    simp only [receiveByte, hmode, receiveChecksum, hheader.header_eq]
    split
    · simp
    · split <;> simp

theorem Reachable.well_formed_two_bytes :
    let d := Config.Phy.terse.demodulator
    let frame := Config.Phy.terse.modulator.frame (.ofSize 2 true 0) [7, 8]
    let r := d.taken .new (frame.take 48 ++ (frame.take 64).drop 24)
    (r.mode = .checksum ∧ r.chunk = [7, 8]) ∧ d.WellFormed r ∧
      ∀ b, (d.receiveByte r b).2 ≠ .error .emptyFrame := by
  intro d frame r
  have hmode : r.mode = .checksum ∧ r.chunk = [7, 8] := by decide +kernel
  obtain ⟨hwell, hbyte⟩ := Reachable.well_formed (Reachable.new.taken (d := d)
    (frame.take 48 ++ (frame.take 64).drop 24))
  exact ⟨hmode, hwell, hbyte hmode.1⟩

end Demodulator

end SoundLink
