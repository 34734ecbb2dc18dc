import SoundLink.Proofs.WaveGrammar

namespace SoundLink.Wave

/-- The bits that an extended header states, those of its first fields if it states none. -/
def statedBits (h : HeaderFields) (tail : List UInt8) : ℕ :=
  let valid := littleEndian ((tail.drop 2).take 2)
  if valid = 0 then h.bits else valid

/-- The headers of integers of more than 32 bits: without a rest, where a sample takes five bytes or more,
and extended, however many bytes it takes. -/
def Wide (size : ℕ) (h : HeaderFields) (tail : List UInt8) : Prop :=
  h.tag = 1 ∧ size = 16 ∧ 32 < h.bits ∨ h.tag = extensibleTag ∧ 32 < statedBits h tail

section

variable {size bits : ℕ} {h : HeaderFields} {tail : List UInt8}

theorem statedBits_eq {valid : ℕ} {mask identifier : List UInt8} (hvalid : valid < 256 ^ 2) :
    statedBits h (bytesOf 2 22 ++ bytesOf 2 valid ++ mask ++ identifier) =
      if valid = 0 then h.bits else valid := by
  have htake : ((bytesOf 2 22 ++ bytesOf 2 valid ++ mask ++ identifier).drop 2).take 2 =
    bytesOf 2 valid := rfl
  rw [statedBits, htake, littleEndian_bytesOf hvalid]

theorem Extension.lt_bits_iff (hx : Extension size h tail .integer bits) : 32 < bits ↔ Wide size h tail := by
  have hne : extensibleTag ≠ 1 := by decide
  cases hx with
  | plain htag hsize => simp [Wide, htag, hsize, hne.symm]
  | skipped htag hsize hbits =>
    have hle : ¬ 32 < h.bits := by omega
    simp [Wide, htag, hle, hne.symm]
  | valid htag _ hvalid =>
    rw [Wide, statedBits_eq hvalid]
    simp [htag, hne]

theorem Extension.bits_pos {encoding : Encoding} (hx : Extension size h tail encoding bits)
    (hpos : 0 < h.bits) : 0 < bits := by
  cases hx with
  | plain | skipped | float => exact hpos
  | valid => split_ifs <;> omega

end

theorem readSamples_eq_overflow_iff (f : Format) (count : ℕ) (body : List UInt8) :
    readSamples f count body = .fault .overflow ↔ f.encoding = .integer ∧ 32 < f.bits := by
  constructor
  · intro h
    by_contra hdeep
    rw [readSamples, if_neg hdeep] at h
    split at h <;> cases h
  · intro hdeep
    rw [readSamples, if_pos hdeep]

theorem readSamples_cases (f : Format) (count : ℕ) (body : List UInt8) :
    (∃ r, readSamples f count body = .ok r) ∨ (∃ e, readSamples f count body = .fail e) ∨
      readSamples f count body = .fault .overflow := by
  by_cases hdeep : f.encoding = .integer ∧ 32 < f.bits
  · exact .inr (.inr ((readSamples_eq_overflow_iff f count body).2 hdeep))
  · rw [readSamples, if_neg hdeep]
    cases (samples f count []).run body with
    | error e => exact .inr (.inl ⟨e, rfl⟩)
    | ok x => exact .inl ⟨_, rfl⟩

variable {file : List UInt8}

theorem read_total (file : List UInt8) :
    (∃ f r, read file = .ok (f, r)) ∨ (∃ e, read file = .fail e) ∨ read file = .fault .overflow := by
  obtain hfail | ⟨f, count, body, -, hread⟩ := read_cases file
  · exact .inr (.inl hfail)
  · obtain ⟨r, h⟩ | ⟨e, h⟩ | h := readSamples_cases f count body
    · rw [h] at hread
      exact .inl ⟨f, r, hread⟩
    · rw [h] at hread
      exact .inr (.inl ⟨e, hread⟩)
    · rw [h] at hread
      exact .inr (.inr hread)

theorem read_eq_overflow_iff : read file = .fault .overflow ↔
    ∃ f count body, Announces file f count body ∧ f.encoding = .integer ∧ 32 < f.bits := by
  constructor
  · intro h
    obtain ⟨e, he⟩ | ⟨f, count, body, hfile, hread⟩ := read_cases file
    · cases he.symm.trans h
    · rw [h] at hread
      obtain ⟨r, hr⟩ | ⟨e, he⟩ | hoverflow := readSamples_cases f count body
      · rw [hr] at hread
        cases hread
      · rw [he] at hread
        cases hread
      · exact ⟨f, count, body, hfile, (readSamples_eq_overflow_iff f count body).1 hoverflow⟩
  · rintro ⟨f, count, body, hfile, hdeep⟩
    rw [read_of_announces hfile, (readSamples_eq_overflow_iff f count body).2 hdeep]
    rfl

theorem Announces.lt_bits_iff {f : Format} {count : ℕ} {body : List UInt8}
    (hfile : Announces file f count body) (hf : f.encoding = .integer) :
    ∃ size h tail, headerChunk size h tail <:+: file ∧ Describes size h tail f ∧ 0 < f.bits ∧
      (32 < f.bits ↔ Wide size h tail) := by
  obtain ⟨size, h, tail, hinfix, hdescribes⟩ := hfile.exists_header
  have hextension := hdescribes.extension
  have hbits := hextension.bits_pos (Nat.pos_of_ne_zero hdescribes.bits_ne)
  rw [hf] at hextension
  exact ⟨size, h, tail, hinfix, hdescribes, hbits, hextension.lt_bits_iff⟩

/-- A file is read or its error is reported, unless its format is of integers of more than 32 bits. The
bits of a format are never 0, and they are more than 32 for the wide headers alone. -/
theorem reads_or_reports (file : List UInt8) :
    ((∃ f r, read file = .ok (f, r)) ∨ (∃ e, read file = .fail e) ∨ read file = .fault .overflow) ∧
    (read file = .fault .overflow ↔
      ∃ f count body, Announces file f count body ∧ f.encoding = .integer ∧ 32 < f.bits) ∧
    ∀ f count body, Announces file f count body → f.encoding = .integer →
      ∃ size h tail, headerChunk size h tail <:+: file ∧ Describes size h tail f ∧ 0 < f.bits ∧
        (32 < f.bits ↔ Wide size h tail) :=
  ⟨read_total file, read_eq_overflow_iff, fun _ _ _ ↦ Announces.lt_bits_iff⟩

def eightBytes : List UInt8 := fileOf 16 ⟨1, 1, 48000, 384000, 8, 64⟩ [] [0, 0, 0, 0, 0, 0, 0, 0]

theorem reads_or_reports_eight_bytes :
    ∃ size h tail, headerChunk size h tail <:+: eightBytes ∧
      Describes size h tail ⟨1, 48000, 64, 8, .integer⟩ ∧ Wide size h tail := by
  have hfile : Announces eightBytes ⟨1, 48000, 64, 8, .integer⟩ 1 [0, 0, 0, 0, 0, 0, 0, 0] :=
    run_prologue_eq_ok.1 (by decide +kernel)
  obtain ⟨size, h, tail, hinfix, hdescribes, -, hwide⟩ := (reads_or_reports eightBytes).2.2 _ _ _ hfile rfl
  exact ⟨size, h, tail, hinfix, hdescribes, hwide.1 (by decide)⟩

/-- The reader ends at a sample of eight bytes, and ahead of any sample where an extended header states 33
bits for samples of two bytes. -/
theorem read_overflow :
    read eightBytes = .fault .overflow ∧
      read (fileOf 40 ⟨extensibleTag, 1, 48000, 96000, 2, 16⟩
        (bytesOf 2 22 ++ bytesOf 2 33 ++ bytesOf 4 1 ++ integerIdentifier) []) = .fault .overflow := by
  decide +kernel

end SoundLink.Wave
