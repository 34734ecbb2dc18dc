import SoundLink.Config.Validity
import SoundLink.Proofs.PolynomialDivision
import SoundLink.Proofs.Provenance
import Mathlib.LinearAlgebra.FiniteDimensional.Lemmas

namespace SoundLink

open Polynomial

namespace Crc

variable {P a b : UInt8}

/-- From the eighth power of `X` on, a power more or less makes no product vanish: the ring has
dimension eight. -/
theorem mul_root_pow_eq_zero_iff (z : AdjoinRoot (generator P)) {n : ℕ} (hn : 8 ≤ n) :
    z * AdjoinRoot.root _ ^ n = 0 ↔ z * AdjoinRoot.root _ ^ 8 = 0 := by
  have hdim : Module.finrank (ZMod 2) (AdjoinRoot (generator P)) = 8 := by
    rw [(AdjoinRoot.powerBasis' (monic_generator P)).finrank, AdjoinRoot.powerBasis'_dim]
    exact natDegree_eq_of_degree_eq_some (degree_generator P)
  have : FiniteDimensional (ZMod 2) (AdjoinRoot (generator P)) :=
    Module.finite_of_finrank_pos (by rw [hdim]; decide)
  let f : Module.End (ZMod 2) (AdjoinRoot (generator P)) := LinearMap.mulLeft _ (AdjoinRoot.root _)
  have hker := Module.End.ker_pow_eq_ker_pow_finrank_of_le (f := f) (hdim.trans_le hn)
  rw [hdim] at hker
  have hz := SetLike.ext_iff.1 hker z
  simpa [f, LinearMap.pow_mulLeft, mul_comm] using hz

/-- Two messages that differ in one byte leave the same check if and only if the difference, moved
on by a byte, is a multiple of the generator. -/
theorem checksum_eq_iff (before after : List UInt8) (a b : UInt8) :
    (ofPolynomial P).checksum (before ++ a :: after) =
        (ofPolynomial P).checksum (before ++ b :: after) ↔
      generator P ∣ Bits.polynomial (a ^^^ b) * X ^ 8 := by
  have hmul : generator P ∣ Bits.polynomial (a ^^^ b) * X ^ 8 ↔
      residue P (a ^^^ b) * AdjoinRoot.root _ ^ 8 = 0 := by
    rw [← AdjoinRoot.mk_eq_zero, map_mul, map_pow, AdjoinRoot.mk_X, residue]
  have hsub (v : UInt8) : residue P (v ^^^ a) - residue P (v ^^^ b) = residue P (a ^^^ b) := by
    have htwice : residue P b + residue P b = 0 := by
      rw [← residue_xor, UInt8.xor_self, residue, Bits.polynomial_zero, map_zero]
    rw [residue_xor, residue_xor, residue_xor]
    linear_combination -htwice
  rw [hmul, ← mul_root_pow_eq_zero_iff _ (show 8 ≤ 8 + 8 * after.length by omega), ← residue_inj (P := P),
    checksum, checksum, updateBytes_append, updateBytes_append, updateBytes_cons, updateBytes_cons,
    residue_updateBytes, residue_updateBytes, update_eq, update_eq, residue_shifts, residue_shifts,
    ← sub_eq_zero, ← hsub ((ofPolynomial P).updateBytes 0 before), pow_add]
  constructor
  · intro h
    linear_combination h
  · intro h
    linear_combination h

theorem not_generator_dvd (hodd : P &&& 1 ≠ 0) (hne : a ≠ b) :
    ¬generator P ∣ Bits.polynomial (a ^^^ b) * X ^ 8 := by
  intro hdvd
  have hzero : Bits.polynomial (a ^^^ b) = 0 := by
    refine eq_zero_of_dvd_of_degree_lt ((isCoprime_X_pow hodd 8).dvd_of_dvd_mul_right hdvd) ?_
    rw [degree_generator]
    exact Bits.degree_polynomial_lt _
  rw [← Bits.polynomial_zero, Bits.polynomial_inj, UInt8.xor_eq_zero_iff] at hzero
  exact hne hzero

theorem generator_dvd (heven : P &&& 1 = 0) :
    generator P ∣ Bits.polynomial ((P >>> 1) ||| 0x80) * X ^ 8 := by
  have hall : ∀ i : Fin 256, UInt8.ofFin i &&& 1 = 0 →
      shifts (UInt8.ofFin i) 8 ((UInt8.ofFin i >>> 1) ||| 0x80) = 0 := by decide +kernel
  have hshifts : shifts P 8 ((P >>> 1) ||| 0x80) = 0 := hall P.toFin heven
  rw [← AdjoinRoot.mk_eq_zero, map_mul, map_pow, AdjoinRoot.mk_X]
  change residue P ((P >>> 1) ||| 0x80) * _ = 0
  rw [← residue_shifts, hshifts, residue, Bits.polynomial_zero, map_zero]

end Crc

namespace Demodulator

variable {d : Demodulator} {σ τ : State} {r : Slicer} {h : FrameHeader} {bytes : List UInt8}
  {crc b : UInt8} {s : Sample} {xs : List Sample}

theorem events_eq_nil_of_not_ends {rs : List Report} (h : ∀ t ∈ rs, ¬t.Ends) : events rs = [] := by
  refine List.filterMap_eq_nil_iff.2 fun t ht ↦ ?_
  have hopen := h t ht
  cases t with
  | packet _ => exact absurd trivial hopen
  | failed _ => exact absurd trivial hopen
  | _ => rfl

def stageAfter (c : Crc) (h : FrameHeader) (bytes : List UInt8) : Stage :=
  if h.size.toNat ≤ bytes.length then .checksum h bytes (c.checksum bytes)
  else .payload h bytes (c.checksum bytes)

theorem step_of_not_ends (hσ : σ.phase = .extract r (stageAfter d.crc h bytes))
    (hopen : ∀ t ∈ (d.step σ s).2, ¬t.Ends) :
    ∃ r', (d.step σ s).1 = ⟨.extract r' (stageAfter d.crc h
      (bytes ++ (d.step σ s).2.filterMap Report.byte?)), σ.packet, σ.lastIndex⟩ := by
  obtain ⟨phase, p, i⟩ := σ
  obtain rfl : phase = _ := hσ
  have hobserves := d.observes_extract r (stageAfter d.crc h bytes) p i s
  rw [← step_extract] at hobserves
  generalize d.step ⟨.extract r (stageAfter d.crc h bytes), p, i⟩ s = stepped at hobserves hopen ⊢
  cases hobserves with
  | @sum r' => exact ⟨r', by simp⟩
  | noByte => exact absurd trivial (hopen _ List.mem_cons_self)
  | refused => exact absurd trivial (hopen _ (List.mem_cons_of_mem _ List.mem_cons_self))
  | @byte r' _ b τ rs _ _ hreceive =>
    unfold stageAfter at hreceive
    split at hreceive
    · -- the byte after the payload ends the frame
      simp only [receive] at hreceive
      split_ifs at hreceive <;> cases hreceive <;> simp [Report.Ends] at hopen
    · cases hreceive
      have hcrc : d.crc.update (d.crc.checksum bytes) b = d.crc.checksum (bytes ++ [b]) := by
        simp [Crc.checksum, Crc.updateBytes]
      exact ⟨r', by simp [Report.byte?, hcrc, stageAfter]⟩

theorem run_concat (σ : State) (xs : List Sample) (s : Sample) :
    d.run σ (xs ++ [s]) =
      ((d.step (d.run σ xs).1 s).1, (d.run σ xs).2 ++ (d.step (d.run σ xs).1 s).2) := by
  rw [run_samples_append, run_cons]
  simp

theorem run_of_not_ends (hσ : σ.phase = .extract r (stageAfter d.crc h []))
    (hopen : ∀ t ∈ (d.run σ xs).2, ¬t.Ends) :
    ∃ r', (d.run σ xs).1 = ⟨.extract r' (stageAfter d.crc h
      ((d.run σ xs).2.filterMap Report.byte?)), σ.packet, σ.lastIndex⟩ := by
  induction xs using List.reverseRecOn with
  | nil =>
    obtain ⟨phase, p, i⟩ := σ
    obtain rfl : phase = _ := hσ
    exact ⟨r, rfl⟩
  | append_singleton xs s ih =>
    rw [run_concat] at hopen ⊢
    obtain ⟨hopen, hopen'⟩ := List.forall_mem_append.1 hopen
    obtain ⟨r', hrun⟩ := ih hopen
    obtain ⟨r'', hstep⟩ := step_of_not_ends (by rw [hrun]) hopen'
    refine ⟨r'', hstep.trans ?_⟩
    rw [List.filterMap_append, hrun]

theorem carries_of_step {rs : List Report} (hstep : d.step σ s = (τ, rs)) :
    d.Carries σ [s] (events rs) τ := by
  rw [Carries, run_cons, hstep]
  simp

theorem carries_checksum (hσ : σ.phase = .extract r (.checksum h bytes crc))
    (hbyte : (d.step σ s).2.filterMap Report.byte? = [b]) :
    (crc ≠ b → d.Carries σ [s] [.error (.crcMismatch crc b)] .initial) ∧
      (crc = b → d.Carries σ [s] (if h.isLast then [.packet (σ.packet ++ bytes)] else [])
        (if h.isLast then .initial else ⟨.search .start, σ.packet ++ bytes, some h.index⟩)) := by
  obtain ⟨phase, p, i⟩ := σ
  obtain rfl : phase = _ := hσ
  have hobserves := d.observes_extract r (.checksum h bytes crc) p i s
  rw [← step_extract] at hobserves
  generalize hstep : d.step ⟨.extract r (.checksum h bytes crc), p, i⟩ s = stepped at hobserves hbyte
  cases hobserves with
  | sum => cases hbyte
  | noByte => cases hbyte
  | @refused _ _ b' _ _ _ hreceive =>
    obtain rfl : b' = b := by simpa [Report.byte?] using hbyte
    simp only [receive] at hreceive
    split_ifs at hreceive with hcrc
    · cases hreceive
      exact ⟨fun _ ↦ carries_of_step hstep, fun heq ↦ absurd heq hcrc⟩
  | @byte _ _ b' _ _ _ _ hreceive =>
    simp only [receive] at hreceive
    split_ifs at hreceive with hcrc hlast <;> cases hreceive <;>
      obtain rfl : b' = b := by simpa [Report.byte?] using hbyte
    · rw [if_pos hlast, if_pos hlast]
      exact ⟨fun hne ↦ absurd hne hcrc, fun _ ↦ carries_of_step hstep⟩
    · rw [if_neg hlast, if_neg hlast]
      exact ⟨fun hne ↦ absurd hne hcrc, fun _ ↦ carries_of_step hstep⟩

/-- Samples in which a frame that has its header decodes its payload, and with the last of them its
check. -/
structure Decodes (d : Demodulator) (σ : State) (h : FrameHeader) (xs : List Sample) (s : Sample)
    (payload : List UInt8) (check : UInt8) : Prop where
  has_header : ∃ r, σ.phase = .extract r (.payload h [] 0)
  length_eq : payload.length = h.size.toNat
  not_ends : ∀ t ∈ (d.run σ xs).2, ¬t.Ends
  payload_eq : (d.run σ xs).2.filterMap Report.byte? = payload
  bytes_eq : (d.run σ (xs ++ [s])).2.filterMap Report.byte? = payload ++ [check]

theorem Decodes.carries {payload : List UInt8} {check : UInt8}
    (hd : d.Decodes σ h xs s payload check) (hne : payload ≠ []) :
    (d.crc.checksum payload ≠ check → d.Carries σ (xs ++ [s])
      [.error (.crcMismatch (d.crc.checksum payload) check)] .initial) ∧
    (d.crc.checksum payload = check → d.Carries σ (xs ++ [s])
      (if h.isLast then [.packet (σ.packet ++ payload)] else [])
      (if h.isLast then .initial else ⟨.search .start, σ.packet ++ payload, some h.index⟩)) := by
  have hpos := List.length_pos_iff.2 hne
  have hlen := hd.length_eq
  obtain ⟨r, hr⟩ := hd.has_header
  have hstart : stageAfter d.crc h [] = .payload h [] 0 := if_neg (by simp; omega)
  have hfull : stageAfter d.crc h payload = .checksum h payload (d.crc.checksum payload) :=
    if_pos hlen.ge
  obtain ⟨r', hrun⟩ := run_of_not_ends (hstart ▸ hr) hd.not_ends
  rw [hd.payload_eq, hfull] at hrun
  have hbyte : (d.step (d.run σ xs).1 s).2.filterMap Report.byte? = [check] := by
    have hbytes := hd.bytes_eq
    rw [run_concat, List.filterMap_append, hd.payload_eq] at hbytes
    exact List.append_cancel_left hbytes
  have hquiet : d.Carries σ xs [] (d.run σ xs).1 := ⟨rfl, events_eq_nil_of_not_ends hd.not_ends⟩
  obtain ⟨hbad, hgood⟩ := carries_checksum (by rw [hrun]) hbyte
  rw [hrun] at hbad hgood hquiet
  exact ⟨fun h ↦ hquiet.append (hbad h), fun h ↦ hquiet.append (hgood h)⟩

/-- One damaged byte of a payload is noticed when the check comes, and the packet dropped, unless the
generator divides the damage, moved on by a byte; then the frame is taken as it is. A generator with
a constant term divides no damage, and one without divides some. -/
theorem carries_damaged_byte (p : Config.Phy) {σ : State} {h : FrameHeader}
    {before after : List UInt8} {a b : UInt8} (hne : a ≠ b) {xs : List Sample} {s : Sample}
    (hdecodes : p.demodulator.Decodes σ h xs s (before ++ b :: after)
      (p.modulator.crc.checksum (before ++ a :: after))) :
    (p.demodulator.Carries σ (xs ++ [s])
        [.error (.crcMismatch (p.demodulator.crc.checksum (before ++ b :: after))
          (p.modulator.crc.checksum (before ++ a :: after)))] .initial ↔
      ¬Crc.generator p.crcPolynomial ∣ Bits.polynomial (a ^^^ b) * X ^ 8) ∧
    (Crc.generator p.crcPolynomial ∣ Bits.polynomial (a ^^^ b) * X ^ 8 →
      p.demodulator.Carries σ (xs ++ [s])
        (if h.isLast then [.packet (σ.packet ++ (before ++ b :: after))] else [])
        (if h.isLast then .initial
          else ⟨.search .start, σ.packet ++ (before ++ b :: after), some h.index⟩)) ∧
    (p.crcPolynomial &&& 1 ≠ 0 →
      ¬Crc.generator p.crcPolynomial ∣ Bits.polynomial (a ^^^ b) * X ^ 8) ∧
    (p.crcPolynomial &&& 1 = 0 → a ^^^ b = (p.crcPolynomial >>> 1) ||| 0x80 →
      Crc.generator p.crcPolynomial ∣ Bits.polynomial (a ^^^ b) * X ^ 8) := by
  obtain ⟨hbad, hgood⟩ := hdecodes.carries (by simp)
  have hsame : p.demodulator.crc.checksum (before ++ b :: after) =
      p.modulator.crc.checksum (before ++ a :: after) ↔
      Crc.generator p.crcPolynomial ∣ Bits.polynomial (a ^^^ b) * X ^ 8 :=
    eq_comm.trans (Crc.checksum_eq_iff before after a b)
  refine ⟨⟨fun hc hdvd ↦ ?_, fun hdvd ↦ hbad (mt hsame.1 hdvd)⟩, fun hdvd ↦ hgood (hsame.2 hdvd),
    fun hodd ↦ Crc.not_generator_dvd hodd hne, fun heven hab ↦ hab ▸ Crc.generator_dvd heven⟩
  -- a frame that is taken fails no check
  have hevents := hc.2.symm.trans (hgood (hsame.2 hdvd)).2
  split at hevents <;> cases hevents

theorem carries_damaged_byte_second :
    let p : Config.Phy := { carrier := { size := 1, headerSize := 1 } }
    let σ : State := ⟨.extract (.start 0 1) (.payload ⟨2, true, 1⟩ [] 0), [9], some 0⟩
    let line := [1, 3, p.modulator.crc.checksum [1, 2]].flatMap (p.modulator.byteSamples 1)
    p.demodulator.Decodes σ ⟨2, true, 1⟩ (line.take 29) (line.getD 29 0) ([1] ++ 3 :: [])
        (p.modulator.crc.checksum ([1] ++ 2 :: [])) ∧
      p.demodulator.Carries σ (line.take 29 ++ [line.getD 29 0]) [.error (.crcMismatch 0x1c 0x1b)]
        .initial := by
  intro p σ line
  have hdecodes : p.demodulator.Decodes σ ⟨2, true, 1⟩ (line.take 29) (line.getD 29 0) ([1] ++ 3 :: [])
      (p.modulator.crc.checksum ([1] ++ 2 :: [])) :=
    ⟨⟨_, rfl⟩, rfl, by decide +kernel, by decide +kernel, by decide +kernel⟩
  have hchecks : p.demodulator.crc.checksum ([1] ++ 3 :: []) = 0x1c ∧
      p.modulator.crc.checksum ([1] ++ 2 :: []) = 0x1b := by decide +kernel
  obtain ⟨hcaught, -, hodd, -⟩ := carries_damaged_byte p (by decide) hdecodes
  have hcarries := hcaught.2 (hodd (by decide))
  rw [hchecks.1, hchecks.2] at hcarries
  exact ⟨hdecodes, hcarries⟩

end Demodulator

def Config.Phy.lenient : Config.Phy := { crcPolynomial := 6 }

/-- Such a link passes its checks, and takes the byte 0x82 for the byte 1 that it was sent. -/
theorem Demodulator.events_run_damaged :
    Config.Phy.lenient.check = .ok () ∧
      let m := Config.Phy.lenient.modulator
      let header := FrameHeader.ofSize 1 true 0
      let heard := m.preamble ++ header.bytes.flatMap (m.byteSamples m.headerSize) ++
        m.byteSamples m.size 0x82 ++ m.byteSamples m.size (m.crc.checksum [1]) ++
        List.replicate m.interval 0
      let told := (Config.Phy.lenient.demodulator.run .initial heard).2
      told.filterMap Report.byte? = header.bytes ++ [0x82, m.crc.checksum [1]] ∧
        events told = [.packet [0x82]] := by
  decide +kernel

end SoundLink
