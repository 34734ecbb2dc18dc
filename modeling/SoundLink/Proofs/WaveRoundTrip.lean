import SoundLink.Proofs.FixedPoint
import SoundLink.Proofs.WaveGrammar

namespace SoundLink.Wave

theorem signed_eq_bmod (bytes : List UInt8) :
    signed bytes = (littleEndian bytes : ℤ).bmod (256 ^ bytes.length) := by
  have hlt := littleEndian_lt bytes
  change (if 2 * littleEndian bytes < 256 ^ bytes.length then (littleEndian bytes : ℤ)
    else littleEndian bytes - ((256 ^ bytes.length : ℕ) : ℤ)) = _
  generalize 256 ^ bytes.length = m at hlt ⊢
  rw [Int.bmod_def, Int.emod_eq_of_lt (by omega) (by omega)]
  split_ifs <;> omega

def wordRange (bits : ℕ) : Set ℤ := Set.Ico (-2 ^ (bits - 1)) (2 ^ (bits - 1))

theorem bmod_mem_wordRange {bits : ℕ} (hbits : 0 < bits) (x : ℤ) : x.bmod (2 ^ bits) ∈ wordRange bits := by
  have hlo := Int.le_bmod (x := x) (Nat.two_pow_pos bits)
  have hhi := Int.bmod_lt (x := x) (Nat.two_pow_pos bits)
  obtain ⟨n, rfl⟩ := Nat.exists_eq_add_one.2 hbits
  rw [wordRange, Nat.add_sub_cancel]
  push_cast [pow_succ] at hlo hhi ⊢
  exact ⟨by omega, by omega⟩

theorem smod_ofNat : ∀ s : Fin 32, ((Int32.ofNat s).toBitVec.smod 32).toNat = s := by decide

theorem toInt_scaled {bits : ℕ} {i : ℤ} (hbits : 0 < bits) (hle : bits ≤ 32) (hi : i ∈ wordRange bits) :
    (scaled bits i).toInt = 2 ^ (32 - bits) * i := by
  have hshift := smod_ofNat ⟨32 - bits, by omega⟩
  have hfull : (2 : ℤ) ^ (32 - bits) * 2 ^ (bits - 1) = 2 ^ 31 := by
    rw [← pow_add]
    congr 1
    omega
  have hlo : -2 ^ 31 ≤ 2 ^ (32 - bits) * i := by
    rw [← hfull, ← mul_neg]
    exact mul_le_mul_of_nonneg_left hi.1 (by positivity)
  have hhi : 2 ^ (32 - bits) * i < 2 ^ 31 := by
    rw [← hfull]
    exact mul_lt_mul_of_pos_left hi.2 (by positivity)
  rw [scaled, ← Int32.toInt_toBitVec, Int32.toBitVec_shiftLeft]
  change ((Int32.ofInt i).toBitVec <<< ((Int32.ofNat (32 - bits)).toBitVec.smod 32).toNat).toInt = _
  rw [hshift, BitVec.toInt_shiftLeft, Nat.shiftLeft_eq, Int32.toBitVec_ofInt, BitVec.toNat_ofInt,
    Nat.cast_mul, Int.toNat_of_nonneg (Int.emod_nonneg _ (by decide)), Int.emod_mul_bmod, Nat.cast_pow,
    Nat.cast_ofNat, mul_comm, bmod_32 hlo hhi]

/-- The number that the bytes of a sample hold: eight bits without a sign, more of them in two's
complement in the lowest bytes. -/
def storedValue (bits : ℕ) (bytes : List UInt8) : ℤ :=
  if bits = 8 then littleEndian bytes - 128 else (littleEndian (bytes.take (bits / 8)) : ℤ).bmod (2 ^ bits)

def widths : List (ℕ × ℕ) := [(1, 8), (2, 16), (3, 24), (4, 24), (4, 32)]

theorem bits_of_mem_widths : ∀ w ∈ widths, 0 < w.2 ∧ w.2 ≤ 32 ∧ (w.2 = 8 → w.1 = 1) := by decide

theorem storedValue_mem_wordRange {container bits : ℕ} {bytes : List UInt8}
    (hwidth : (container, bits) ∈ widths) (hlength : bytes.length = container) :
    storedValue bits bytes ∈ wordRange bits := by
  obtain ⟨hbits, -, hbyte⟩ := bits_of_mem_widths _ hwidth
  by_cases h8 : bits = 8
  · have hlt := littleEndian_lt bytes
    rw [hlength, show container = 1 from hbyte h8] at hlt
    rw [storedValue, if_pos h8, h8]
    constructor <;> omega
  · rw [storedValue, if_neg h8]
    exact bmod_mem_wordRange hbits _

section

variable {f : Format} {bytes : List UInt8} {s : Sample}

theorem decode_integer (hf : f.encoding = .integer) (hwidth : (f.container, f.bits) ∈ widths)
    (hlength : bytes.length = f.container) :
    decode f bytes = .ok (scaled f.bits (storedValue f.bits bytes)) := by
  obtain ⟨channels, rate, bits, container, encoding⟩ := f
  dsimp only at hf hwidth hlength ⊢
  subst hf
  simp only [widths, List.mem_cons, Prod.mk.injEq, List.not_mem_nil, or_false] at hwidth
  obtain ⟨rfl, rfl⟩ | ⟨rfl, rfl⟩ | ⟨rfl, rfl⟩ | ⟨rfl, rfl⟩ | ⟨rfl, rfl⟩ := hwidth
  · rfl
  all_goals simp [decode, storedValue, signed_eq_bmod, hlength, List.take_of_length_le]

theorem mem_widths_of_decode (hf : f.encoding = .integer) (h : decode f bytes = .ok s) :
    (f.container, f.bits) ∈ widths := by
  obtain ⟨channels, rate, bits, container, encoding⟩ := f
  dsimp only at hf h ⊢
  subst hf
  rw [decode] at h
  split at h <;> simp_all [widths]

theorem decode_integer_eq_ok (hf : f.encoding = .integer) (hlength : bytes.length = f.container) :
    decode f bytes = .ok s ↔
      (f.container, f.bits) ∈ widths ∧ s.toInt = 2 ^ (32 - f.bits) * storedValue f.bits bytes := by
  have hscaled (hwidth : (f.container, f.bits) ∈ widths) :=
    toInt_scaled (bits_of_mem_widths _ hwidth).1 (bits_of_mem_widths _ hwidth).2.1
      (storedValue_mem_wordRange hwidth hlength)
  constructor
  · intro h
    have hwidth := mem_widths_of_decode hf h
    obtain rfl : scaled f.bits (storedValue f.bits bytes) = s :=
      Except.ok.inj ((decode_integer hf hwidth hlength).symm.trans h)
    exact ⟨hwidth, hscaled hwidth⟩
  · rintro ⟨hwidth, hs⟩
    rw [decode_integer hf hwidth hlength, Int32.toInt_inj.1 (hs.trans (hscaled hwidth).symm)]

end

theorem getElem?_filterMap_zipIdx {channels n j : ℕ} (hj : j < channels) (hn : (n + j) % channels = 0)
    (xs : List Sample) (k : ℕ) :
    ((xs.zipIdx n).filterMap fun (s, i) ↦ if i % channels = 0 then some s else none)[k]? =
      xs[j + k * channels]? := by
  induction xs generalizing n j k with
  | nil => rfl
  | cons x xs ih =>
    rw [List.zipIdx_cons]
    obtain _ | j := j
    · have hfirst : n % channels = 0 := hn
      simp only [List.filterMap_cons, hfirst, if_true]
      obtain _ | k := k
      · rw [Nat.zero_mul, List.getElem?_cons_zero, List.getElem?_cons_zero]
      · have hnext : (n + 1 + (channels - 1)) % channels = 0 := by
          rw [show n + 1 + (channels - 1) = n + channels by omega, Nat.add_mod_right, hfirst]
        have hindex : 0 + (k + 1) * channels = channels - 1 + k * channels + 1 := by
          rw [Nat.succ_mul]
          omega
        rw [List.getElem?_cons_succ, ih (j := channels - 1) (by omega) hnext, hindex, List.getElem?_cons_succ]
    · have hne : n % channels ≠ 0 := by
        intro h
        rw [Nat.add_mod, h, Nat.zero_add, Nat.mod_mod, Nat.mod_eq_of_lt hj] at hn
        omega
      simp only [List.filterMap_cons, hne, if_false]
      rw [ih (j := j) (by omega) (by rwa [Nat.add_right_comm]), Nat.add_right_comm j, List.getElem?_cons_succ]

theorem getElem?_firstChannel {channels : ℕ} (hchannels : 0 < channels) (xs : List Sample) (k : ℕ) :
    (firstChannel channels xs)[k]? = xs[k * channels]? := by
  rw [firstChannel, getElem?_filterMap_zipIdx hchannels (Nat.zero_mod _), Nat.zero_add]

theorem length_firstChannel {channels m : ℕ} (hchannels : 0 < channels) {xs : List Sample}
    (h : xs.length = channels * m) : (firstChannel channels xs).length = m := by
  have hle (k : ℕ) : (firstChannel channels xs).length ≤ k ↔ m ≤ k := by
    rw [← List.getElem?_eq_none_iff, getElem?_firstChannel hchannels, List.getElem?_eq_none_iff, h,
      mul_comm k, Nat.mul_le_mul_left_iff hchannels]
  exact le_antisymm ((hle m).2 le_rfl) ((hle _).1 le_rfl)

section

variable {f : Format}

def block (f : Format) (body : List UInt8) (k : ℕ) : List UInt8 :=
  (body.drop (k * f.container)).take f.container

theorem block_zero {bytes rest : List UInt8} (h : bytes.length = f.container) :
    block f (bytes ++ rest) 0 = bytes := by
  rw [block, Nat.zero_mul, List.drop_zero, ← h, List.take_left]

theorem block_succ {bytes rest : List UInt8} (h : bytes.length = f.container) (k : ℕ) :
    block f (bytes ++ rest) (k + 1) = block f rest k := by
  rw [block, block, Nat.succ_mul, Nat.add_comm, ← List.drop_drop, ← h, List.drop_left]

theorem run_samples_eq_ok {count : ℕ} {read xs : List Sample} {body rest : List UInt8} :
    (samples f count read).run body = .ok (xs, rest) ↔ ∃ decoded, xs = read.reverse ++ decoded ∧
      decoded.length = count ∧ rest = body.drop (count * f.container) ∧
      count * f.container ≤ body.length ∧
      ∀ k (hk : k < decoded.length), decode f (block f body k) = .ok decoded[k] := by
  induction count generalizing read body with
  | zero =>
    rw [samples, run_pure_eq_ok, Nat.zero_mul, List.drop_zero]
    constructor
    · rintro ⟨rfl, rfl⟩
      exact ⟨[], (List.append_nil _).symm, rfl, rfl, Nat.zero_le _, nofun⟩
    · rintro ⟨decoded, rfl, hlength, rfl, -, -⟩
      rw [List.eq_nil_of_length_eq_zero hlength, List.append_nil]
      exact ⟨rfl, rfl⟩
  | succ count ih =>
    -- The block at 0 is the one that is taken, and the later blocks are those of the bytes after it.
    rw [samples, run_bind_eq_ok]
    simp only [run_bind_eq_ok, run_take_eq_ok, run_lift_eq_ok, ih]
    constructor
    · rintro ⟨bytes, mid, ⟨rfl, hbytes⟩, s, _, ⟨hs, rfl⟩, decoded, rfl, hlength, rfl, hle, hdecoded⟩
      refine ⟨s :: decoded, ?_, congrArg Nat.succ hlength, ?_, ?_, ?_⟩
      · rw [List.reverse_cons, List.append_assoc, List.singleton_append]
      · rw [Nat.succ_mul, Nat.add_comm, ← List.drop_drop, ← hbytes, List.drop_left]
      · rw [List.length_append, Nat.succ_mul]
        omega
      · rintro (_ | k) hk
        · rwa [block_zero hbytes]
        · rw [block_succ hbytes]
          exact hdecoded k (Nat.lt_of_succ_lt_succ hk)
    · rintro ⟨_ | ⟨s, decoded⟩, rfl, hlength, rfl, hle, hdecoded⟩
      · exact nomatch hlength
      rw [Nat.succ_mul] at hle
      obtain ⟨bytes, mid, rfl, hbytes⟩ : ∃ bytes mid, body = bytes ++ mid ∧ bytes.length = f.container :=
        ⟨_, _, (List.take_append_drop f.container body).symm, List.length_take_of_le (by omega)⟩
      refine ⟨bytes, mid, ⟨rfl, hbytes⟩, s, mid, ⟨?_, rfl⟩, decoded, ?_, Nat.succ.inj hlength, ?_, ?_, ?_⟩
      · rw [← block_zero hbytes]
        exact hdecoded 0 (Nat.succ_pos _)
      · rw [List.reverse_cons, List.append_assoc, List.singleton_append]
      · rw [Nat.succ_mul, Nat.add_comm, ← List.drop_drop, ← hbytes, List.drop_left]
      · rw [List.length_append] at hle
        omega
      · intro k hk
        rw [← block_succ hbytes]
        exact hdecoded (k + 1) (Nat.succ_lt_succ hk)

theorem length_block {body : List UInt8} {count k : ℕ} (hk : k < count)
    (hle : count * f.container ≤ body.length) : (block f body k).length = f.container := by
  have := (Nat.mul_le_mul_right f.container (Nat.succ_le_of_lt hk)).trans hle
  rw [Nat.succ_mul] at this
  rw [block, List.length_take, List.length_drop]
  omega

/-- What is read of a file that stores `count` samples of its channels side by side. -/
structure Plays (f : Format) (count : ℕ) (body : List UInt8) (xs : List Sample) : Prop where
  length_eq : f.channels * xs.length = count
  value (k : ℕ) (hk : k < xs.length) :
    xs[k].toInt = 2 ^ (32 - f.bits) * storedValue f.bits (block f body (k * f.channels))

variable {count : ℕ} {body : List UInt8}

theorem Plays.unique {xs ys : List Sample} (hchannels : 0 < f.channels) (hx : Plays f count body xs)
    (hy : Plays f count body ys) : xs = ys := by
  have hlength := Nat.eq_of_mul_eq_mul_left hchannels (hx.length_eq.trans hy.length_eq.symm)
  refine List.ext_getElem hlength fun k hk hk' ↦ Int32.toInt_inj.1 ?_
  rw [hx.value k hk, hy.value k hk']

theorem plays_firstChannel {decoded : List Sample} (hf : f.encoding = .integer) (hchannels : 0 < f.channels)
    (hdvd : f.channels ∣ decoded.length) (hle : decoded.length * f.container ≤ body.length)
    (hdecoded : ∀ k (hk : k < decoded.length), decode f (block f body k) = .ok decoded[k]) :
    Plays f decoded.length body (firstChannel f.channels decoded) := by
  obtain ⟨m, hm⟩ := hdvd
  refine ⟨by rw [length_firstChannel hchannels hm, hm], fun k hk ↦ ?_⟩
  have hget := getElem?_firstChannel hchannels decoded k
  rw [List.getElem?_eq_getElem hk] at hget
  obtain ⟨hk', hget⟩ := List.getElem?_eq_some_iff.1 hget.symm
  rw [← hget]
  exact ((decode_integer_eq_ok hf (length_block hk' hle)).1 (hdecoded _ hk')).2

theorem exists_run_samples (hf : f.encoding = .integer) (hwidth : count = 0 ∨ (f.container, f.bits) ∈ widths)
    (hle : count * f.container ≤ body.length) :
    ∃ decoded rest, (samples f count []).run body = .ok (decoded, rest) := by
  refine ⟨_, _, run_samples_eq_ok.2
    ⟨(List.range count).map fun k ↦ scaled f.bits (storedValue f.bits (block f body k)), rfl,
      by rw [List.length_map, List.length_range], rfl, hle, fun k hk ↦ ?_⟩⟩
  have hk' : k < count := by rwa [List.length_map, List.length_range] at hk
  rw [List.getElem_map, List.getElem_range]
  exact decode_integer hf (hwidth.resolve_left (by omega)) (length_block hk' hle)

theorem readSamples_integer_eq_ok {r : Recording} (hf : f.encoding = .integer) (hchannels : 0 < f.channels)
    (hdvd : f.channels ∣ count) :
    readSamples f count body = .ok r ↔ f.bits ≤ 32 ∧ (count = 0 ∨ (f.container, f.bits) ∈ widths) ∧
      count * f.container ≤ body.length ∧ r.rate = f.rate ∧ Plays f count body r.samples := by
  by_cases hbits : 32 < f.bits
  · rw [readSamples, if_pos ⟨hf, hbits⟩]
    exact ⟨nofun, fun h ↦ absurd h.1 hbits.not_ge⟩
  rw [readSamples, if_neg fun h ↦ hbits h.2]
  have hplays {decoded rest : List _} (hrun : (samples f count []).run body = .ok (decoded, rest)) :
      Plays f count body (firstChannel f.channels decoded) ∧ count * f.container ≤ body.length ∧
        (count = 0 ∨ (f.container, f.bits) ∈ widths) := by
    obtain ⟨_, rfl, rfl, -, hle, hdecoded⟩ := run_samples_eq_ok.1 hrun
    refine ⟨plays_firstChannel hf hchannels hdvd hle hdecoded, hle, ?_⟩
    refine (Nat.eq_zero_or_pos _).imp_right fun hpos ↦ mem_widths_of_decode hf (hdecoded 0 hpos)
  constructor
  · intro h
    split at h
    · exact nomatch h
    · rename_i decoded rest hrun
      obtain ⟨hplays, hle, hwidth⟩ := hplays hrun
      obtain rfl := Except.ok.inj h
      exact ⟨not_lt.1 hbits, hwidth, hle, rfl, hplays⟩
  · rintro ⟨-, hwidth, hle, hrate, hr⟩
    obtain ⟨decoded, rest, hrun⟩ := exists_run_samples hf hwidth hle
    obtain ⟨rate, xs⟩ := r
    obtain rfl : rate = f.rate := hrate
    obtain rfl : xs = _ := hr.unique hchannels (hplays hrun).1
    rw [hrun]

end

theorem read_eq_ok {file : List UInt8} {f : Format} {r : Recording} :
    read file = .ok (f, r) ↔
      ∃ count body, Announces file f count body ∧ readSamples f count body = .ok r := by
  constructor
  · intro h
    obtain ⟨e, he⟩ | ⟨g, count, body, hfile, hread⟩ := read_cases file
    · cases he.symm.trans h
    · rw [h] at hread
      cases hsamples : readSamples g count body with
      | error e =>
        rw [hsamples] at hread
        cases hread
      | ok s =>
        rw [hsamples] at hread
        obtain ⟨rfl, rfl⟩ := Prod.mk.inj (Except.ok.inj hread)
        exact ⟨count, body, hfile, hsamples⟩
  · rintro ⟨count, body, hfile, hsamples⟩
    rw [read_of_announces hfile, hsamples]
    rfl

theorem read_integer_eq_ok {file : List UInt8} {f : Format} {r : Recording} (hf : f.encoding = .integer) :
    read file = .ok (f, r) ↔ ∃ count body, Announces file f count body ∧ f.bits ≤ 32 ∧
      (count = 0 ∨ (f.container, f.bits) ∈ widths) ∧ count * f.container ≤ body.length ∧
      r.rate = f.rate ∧ Plays f count body r.samples := by
  rw [read_eq_ok]
  refine exists₂_congr fun count body ↦ and_congr_right fun hfile ↦ ?_
  obtain ⟨_, _, _, -, hdescribes⟩ := hfile.exists_header
  exact readSamples_integer_eq_ok hf hdescribes.channels_pos hfile.channels_dvd

def written (rate : UInt32) : Format := ⟨1, rate, 32, 4, .integer⟩

theorem length_sampleBytes (s : Sample) : (sampleBytes s).length = 4 := length_bytesOf _ _

theorem storedValue_sampleBytes (s : Sample) : storedValue 32 (sampleBytes s) = s.toInt := by
  rw [storedValue, if_neg (by decide), sampleBytes, List.take_of_length_le (length_bytesOf _ _).le,
    littleEndian_bytesOf s.toUInt32.toNat_lt, ← Int32.toInt_toBitVec, BitVec.toInt_eq_toNat_bmod]
  rfl

theorem block_flatMap {f : Format} {store : Sample → List UInt8} (h : ∀ s, (store s).length = f.container)
    (xs : List Sample) (k : ℕ) (hk : k < xs.length) : block f (xs.flatMap store) k = store xs[k] := by
  induction xs generalizing k with
  | nil => exact absurd hk (Nat.not_lt_zero _)
  | cons x xs ih =>
    rw [List.flatMap_cons]
    obtain _ | k := k
    · exact block_zero (h x)
    · rw [block_succ (h x)]
      exact ih k (Nat.lt_of_succ_lt_succ hk)

theorem plays_sampleBytes (rate : UInt32) (xs : List Sample) :
    Plays (written rate) xs.length (xs.flatMap sampleBytes) xs where
  length_eq := Nat.one_mul _
  value k hk := by
    rw [show k * (written rate).channels = k from Nat.mul_one k, block_flatMap length_sampleBytes xs k hk]
    change _ = 1 * storedValue 32 (sampleBytes xs[k])
    rw [storedValue_sampleBytes, one_mul]

theorem describes_written {rate : UInt32} (hrate : rate.toNat < 2 ^ 30) :
    Describes 40 ⟨extensibleTag, 1, rate.toNat, rate.toNat * 4, 4, 32⟩
      (bytesOf 2 22 ++ bytesOf 2 32 ++ bytesOf 4 1 ++ integerIdentifier) (written rate) where
  fits := by
    refine ⟨?_, ?_, rate.toNat_lt, ?_, ?_, ?_⟩ <;> norm_num [extensibleTag]
    omega
  le_size := by decide
  channels_ne := Nat.one_ne_zero
  container_lt := by norm_num
  bits_le := by norm_num
  byteRate_eq := Nat.mul_comm _ _
  bits_mod := by norm_num
  bits_ne := by norm_num
  channels_eq := rfl
  rate_eq := UInt32.ofNat_toNat.symm
  container_eq := by norm_num [written]
  extension := .valid rfl (by decide) (by decide) rfl (.inl ⟨rfl, rfl⟩)

theorem length_flatMap_sampleBytes (xs : List Sample) : (xs.flatMap sampleBytes).length = xs.length * 4 := by
  rw [List.length_flatMap, List.map_congr_left fun s _ ↦ length_sampleBytes s, List.map_const',
    List.sum_replicate, smul_eq_mul]

theorem write_eq_fileOf (r : Recording) :
    write r = fileOf 40 ⟨extensibleTag, 1, r.rate.toNat, r.rate.toNat * 4, 4, 32⟩
      (bytesOf 2 22 ++ bytesOf 2 32 ++ bytesOf 4 1 ++ integerIdentifier) (r.samples.flatMap sampleBytes) := by
  rw [fileOf, length_flatMap_sampleBytes, Nat.mul_comm _ 4]
  simp only [write, formatChunk, headerChunk, HeaderFields.bytes, List.append_assoc]

theorem announces_write {r : Recording} (hsize : 60 + 4 * r.samples.length < 2 ^ 32)
    (hrate : r.rate.toNat < 2 ^ 30) :
    Announces (write r) (written r.rate) r.samples.length (r.samples.flatMap sampleBytes) := by
  rw [write_eq_fileOf]
  refine announces_fileOf (describes_written hrate) (by decide) (one_dvd _)
    (length_flatMap_sampleBytes _).symm ?_
  rw [length_flatMap_sampleBytes]
  omega

theorem length_write (r : Recording) : (write r).length = 68 + 4 * r.samples.length := by
  simp only [write, formatChunk, List.length_append, length_bytesOf, length_flatMap_sampleBytes]
  change 4 + 4 + 4 + (4 + 4 + 2 + 2 + 4 + 4 + 2 + 2 + 2 + 2 + 4 + 16) + 4 + 4 + r.samples.length * 4 = _
  omega

/-- A recording that fits into a file is read as it was written, and a file of integers that is read gives
its first channel: for each frame one sample, the stored number at full scale, and nothing else. -/
theorem read_exactly :
    (∀ r : Recording, 60 + 4 * r.samples.length < 2 ^ 32 → r.rate.toNat < 2 ^ 30 →
      (write r).length = 68 + 4 * r.samples.length ∧
      read (write r) = .ok (⟨1, r.rate, 32, 4, .integer⟩, r)) ∧
    ∀ (file : List UInt8) (f : Format) (r : Recording), f.encoding = .integer →
      (read file = .ok (f, r) ↔ ∃ count body, Announces file f count body ∧ f.bits ≤ 32 ∧
        (count = 0 ∨ (f.container, f.bits) ∈ widths) ∧ count * f.container ≤ body.length ∧
        r.rate = f.rate ∧ Plays f count body r.samples) := by
  refine ⟨fun r hsize hrate ↦ ⟨length_write r, ?_⟩, fun file f r ↦ read_integer_eq_ok⟩
  exact read_integer_eq_ok (f := written r.rate) rfl |>.2 ⟨_, _, announces_write hsize hrate, le_rfl,
    .inr (by decide : (4, 32) ∈ widths), (length_flatMap_sampleBytes _).ge, rfl, plays_sampleBytes _ _⟩

def stereo : List UInt8 := fileOf 16 ⟨1, 2, 8000, 32000, 4, 16⟩ [] [1, 0, 2, 0, 255, 255, 4, 0]

theorem read_exactly_stereo :
    read (write ⟨48000, [0, 2147483647, -2147483647, 12345, -67890]⟩) =
      .ok (⟨1, 48000, 32, 4, .integer⟩, ⟨48000, [0, 2147483647, -2147483647, 12345, -67890]⟩) ∧
    read stereo = .ok (⟨2, 8000, 16, 2, .integer⟩, ⟨8000, [65536, -65536]⟩) ∧
    ∃ count body, Announces stereo ⟨2, 8000, 16, 2, .integer⟩ count body ∧
      Plays ⟨2, 8000, 16, 2, .integer⟩ count body [65536, -65536] := by
  have hstereo : read stereo = .ok (⟨2, 8000, 16, 2, .integer⟩, ⟨8000, [65536, -65536]⟩) := by
    decide +kernel
  obtain ⟨count, body, hfile, -, -, -, -, hplays⟩ := (read_exactly.2 stereo _ _ rfl).1 hstereo
  exact ⟨(read_exactly.1 ⟨48000, _⟩ (by decide) (by decide)).2, hstereo, count, body, hfile, hplays⟩

end SoundLink.Wave
