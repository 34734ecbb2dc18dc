import SoundLink.Wave.Reader
import Mathlib.Tactic

namespace SoundLink.Wave

@[simp] theorem length_bytesOf (width n : ℕ) : (bytesOf width n).length = width := by
  induction width generalizing n with
  | zero => rfl
  | succ width ih => rw [bytesOf, List.length_cons, ih]

theorem littleEndian_bytesOf {width n : ℕ} (h : n < 256 ^ width) : littleEndian (bytesOf width n) = n := by
  induction width generalizing n with
  | zero =>
    obtain rfl : n = 0 := by simpa using h
    rfl
  | succ width ih =>
    have hn : n / 256 < 256 ^ width := by
      rw [Nat.div_lt_iff_lt_mul (by decide)]
      simpa [Nat.pow_succ] using h
    change (UInt8.ofNat n).toNat + 256 * littleEndian (bytesOf width (n / 256)) = n
    rw [ih hn, UInt8.toNat_ofNat']
    omega

theorem littleEndian_lt (bytes : List UInt8) : littleEndian bytes < 256 ^ bytes.length := by
  induction bytes with
  | nil => exact Nat.one_pos
  | cons b bytes ih =>
    have hb := b.toNat_lt
    change b.toNat + 256 * littleEndian bytes < 256 ^ (bytes.length + 1)
    rw [pow_succ]
    omega

theorem bytesOf_littleEndian (bytes : List UInt8) : bytesOf bytes.length (littleEndian bytes) = bytes := by
  induction bytes with
  | nil => rfl
  | cons b bytes ih =>
    have hb := b.toNat_lt
    change UInt8.ofNat (b.toNat + 256 * littleEndian bytes) ::
      bytesOf bytes.length ((b.toNat + 256 * littleEndian bytes) / 256) = b :: bytes
    rw [show (b.toNat + 256 * littleEndian bytes) / 256 = littleEndian bytes by omega, ih]
    refine congrArg (· :: bytes) (UInt8.toNat_inj.1 ?_)
    rw [UInt8.toNat_ofNat']
    omega

section

variable {α β : Type} {bytes rest : List UInt8}

theorem run_bind_eq_ok {m : Reader α} {f : α → Reader β} {b : β} :
    (m >>= f).run bytes = .ok (b, rest) ↔
      ∃ a mid, m.run bytes = .ok (a, mid) ∧ (f a).run mid = .ok (b, rest) := by
  rw [StateT.run_bind]
  cases m.run bytes with
  | error e => simp [bind, Except.bind]
  | ok x =>
    obtain ⟨a, mid⟩ := x
    simp [bind, Except.bind]

theorem run_pure_eq_ok {a b : α} :
    (pure a : Reader α).run bytes = .ok (b, rest) ↔ b = a ∧ rest = bytes := by
  rw [StateT.run_pure]
  simp [pure, Except.pure, eq_comm]

theorem run_get_eq_ok {ahead : List UInt8} :
    (get : Reader (List UInt8)).run bytes = .ok (ahead, rest) ↔ ahead = bytes ∧ rest = bytes := by
  rw [StateT.run_get]
  simp [pure, Except.pure, eq_comm]

theorem run_throw_eq_ok {e : Error} {a : α} : (throw e : Reader α).run bytes = .ok (a, rest) ↔ False :=
  ⟨nofun, False.elim⟩

theorem run_lift_eq_ok {e : Except Error α} {a : α} :
    (liftM e : Reader α).run bytes = .ok (a, rest) ↔ e = .ok a ∧ rest = bytes := by
  cases e with
  | error e => simp [liftM, monadLift, MonadLift.monadLift, StateT.lift, StateT.run, bind, Except.bind]
  | ok b => simp [liftM, monadLift, MonadLift.monadLift, StateT.lift, StateT.run, bind, Except.bind, pure,
      Except.pure, eq_comm]

theorem run_take_eq_ok {n : ℕ} {xs : List UInt8} :
    (take n).run bytes = .ok (xs, rest) ↔ bytes = xs ++ rest ∧ xs.length = n := by
  have hlength := List.length_take (i := n) (l := bytes)
  constructor
  · intro h
    simp only [take, StateT.run] at h
    split at h
    · cases h
    · cases h
      exact ⟨(List.take_append_drop n bytes).symm, by omega⟩
  · rintro ⟨rfl, rfl⟩
    simp [take, StateT.run]

theorem run_number_eq_ok {width n : ℕ} :
    (number width).run bytes = .ok (n, rest) ↔ bytes = bytesOf width n ++ rest ∧ n < 256 ^ width := by
  rw [number, map_eq_pure_bind, run_bind_eq_ok]
  simp only [run_take_eq_ok, run_pure_eq_ok]
  constructor
  · rintro ⟨xs, mid, ⟨rfl, rfl⟩, rfl, rfl⟩
    exact ⟨by rw [bytesOf_littleEndian], littleEndian_lt xs⟩
  · rintro ⟨rfl, hn⟩
    exact ⟨_, rest, ⟨rfl, length_bytesOf _ _⟩, (littleEndian_bytesOf hn).symm, rfl⟩

theorem run_expect_eq_ok {holds : Bool} {e : Error} {u : Unit} :
    (expect holds e).run bytes = .ok (u, rest) ↔ holds = true ∧ rest = bytes := by
  cases holds with
  | true =>
    rw [expect, if_pos rfl, run_pure_eq_ok]
    simp
  | false =>
    rw [expect, if_neg Bool.false_ne_true, run_throw_eq_ok]
    simp

theorem run_seqRight_eq_ok {m : Reader α} {k : Reader β} {b : β} :
    (m *> k).run bytes = .ok (b, rest) ↔
      ∃ a mid, m.run bytes = .ok (a, mid) ∧ k.run mid = .ok (b, rest) := by
  rw [seqRight_eq_bind, run_bind_eq_ok]

theorem run_discard_eq_ok {m : Reader α} {u : Unit} :
    (discard m).run bytes = .ok (u, rest) ↔ ∃ a, m.run bytes = .ok (a, rest) := by
  change ((fun _ ↦ ()) <$> m).run bytes = _ ↔ _
  rw [map_eq_pure_bind, run_bind_eq_ok]
  simp only [run_pure_eq_ok]
  constructor
  · rintro ⟨a, mid, hm, -, rfl⟩
    exact ⟨a, hm⟩
  · rintro ⟨a, hm⟩
    exact ⟨a, rest, hm, trivial, rfl⟩

end

structure HeaderFields where
  tag : ℕ
  channels : ℕ
  rate : ℕ
  byteRate : ℕ
  /-- The bytes of a sample of each channel. -/
  frame : ℕ
  bits : ℕ

namespace HeaderFields

def bytes (h : HeaderFields) : List UInt8 :=
  bytesOf 2 h.tag ++ bytesOf 2 h.channels ++ bytesOf 4 h.rate ++ bytesOf 4 h.byteRate ++ bytesOf 2 h.frame
    ++ bytesOf 2 h.bits

structure Fits (h : HeaderFields) : Prop where
  tag_lt : h.tag < 256 ^ 2
  channels_lt : h.channels < 256 ^ 2
  rate_lt : h.rate < 256 ^ 4
  byteRate_lt : h.byteRate < 256 ^ 4
  frame_lt : h.frame < 256 ^ 2
  bits_lt : h.bits < 256 ^ 2

end HeaderFields

/-- How a header goes on after its first fields, the encoding that it names, and the bits of a sample. -/
inductive Extension (size : ℕ) (h : HeaderFields) : List UInt8 → Encoding → ℕ → Prop
  | plain (htag : h.tag = 1) (hsize : size = 16) : Extension size h [] .integer h.bits
  | skipped {tail : List UInt8} (htag : h.tag = 1)
      (hsize : size = 18 ∧ tail.length = 2 ∨ size = 40 ∧ tail.length = 24)
      (hbits : h.bits = 8 ∨ h.bits = 16 ∨ h.bits = 24) : Extension size h tail .integer h.bits
  | float {tail : List UInt8} (htag : h.tag = 3)
      (hsize : size = 16 ∧ tail = [] ∨ size = 18 ∧ tail = bytesOf 2 0) (hbits : h.bits = 32) :
      Extension size h tail .float h.bits
  | valid {encoding : Encoding} {bits : ℕ} {mask identifier : List UInt8} (htag : h.tag = extensibleTag)
      (hsize : 40 ≤ size) (hbits : bits < 256 ^ 2) (hmask : mask.length = 4)
      (hidentifier : identifier = integerIdentifier ∧ encoding = .integer ∨
        identifier = floatIdentifier ∧ encoding = .float) :
      Extension size h (bytesOf 2 22 ++ bytesOf 2 bits ++ mask ++ identifier) encoding
        (if bits = 0 then h.bits else bits)

structure Describes (size : ℕ) (h : HeaderFields) (tail : List UInt8) (f : Format) : Prop where
  fits : h.Fits
  le_size : 16 ≤ size
  channels_ne : h.channels ≠ 0
  container_lt : h.frame / h.channels * 8 < 65536
  bits_le : h.bits ≤ h.frame / h.channels * 8
  byteRate_eq : h.byteRate = h.frame * h.rate
  bits_mod : h.bits % 8 = 0
  bits_ne : h.bits ≠ 0
  channels_eq : f.channels = h.channels
  rate_eq : f.rate = UInt32.ofNat h.rate
  container_eq : f.container = h.frame / h.channels
  extension : Extension size h tail f.encoding f.bits

section

variable {size bits : ℕ} {bytes rest : List UInt8}

theorem run_integerTail_eq_ok {u : Unit} :
    (integerTail size bits).run bytes = .ok (u, rest) ↔ ∃ tail, bytes = tail ++ rest ∧
      (size = 16 ∧ tail = [] ∨ (size = 18 ∧ tail.length = 2 ∨ size = 40 ∧ tail.length = 24) ∧
        (bits = 8 ∨ bits = 16 ∨ bits = 24)) := by
  simp only [integerTail, run_bind_eq_ok, run_expect_eq_ok, Bool.or_eq_true, decide_eq_true_eq, and_assoc,
    exists_const, exists_and_left, exists_eq_left]
  constructor
  · rintro ⟨(rfl | rfl) | rfl, h⟩
    · rw [if_neg (by decide), if_neg (by decide), run_pure_eq_ok] at h
      exact ⟨[], h.2.symm, .inl ⟨rfl, rfl⟩⟩
    · rw [if_pos (by decide), if_neg (by decide)] at h
      simp only [run_bind_eq_ok, run_expect_eq_ok, run_discard_eq_ok, run_take_eq_ok, run_pure_eq_ok,
        Bool.or_eq_true, decide_eq_true_eq, and_assoc, exists_const, exists_and_left, exists_eq_left] at h
      obtain ⟨_, ⟨skipped, rfl, hlength⟩, hbits, -, rfl⟩ := h
      exact ⟨skipped, rfl, .inr ⟨.inl ⟨rfl, hlength⟩, by tauto⟩⟩
    · rw [if_pos (by decide), if_pos rfl] at h
      simp only [run_bind_eq_ok, run_expect_eq_ok, run_discard_eq_ok, run_take_eq_ok, Bool.or_eq_true,
        decide_eq_true_eq, and_assoc, exists_const, exists_and_left, exists_eq_left] at h
      obtain ⟨_, ⟨skipped, rfl, hlength⟩, hbits, more, rfl, hmore⟩ := h
      exact ⟨skipped ++ more, by rw [List.append_assoc],
        .inr ⟨.inr ⟨rfl, by rw [List.length_append, hlength, hmore]⟩, by tauto⟩⟩
  · rintro ⟨tail, rfl, ⟨rfl, rfl⟩ | ⟨⟨rfl, hlength⟩ | ⟨rfl, hlength⟩, hbits⟩⟩
    · refine ⟨.inl (.inl rfl), ?_⟩
      rw [if_neg (by decide), if_neg (by decide), run_pure_eq_ok]
      exact ⟨rfl, rfl⟩
    · refine ⟨.inl (.inr rfl), ?_⟩
      rw [if_pos (by decide), if_neg (by decide)]
      simp only [run_bind_eq_ok, run_expect_eq_ok, run_discard_eq_ok, run_take_eq_ok, run_pure_eq_ok,
        Bool.or_eq_true, decide_eq_true_eq, and_assoc, exists_const, exists_and_left, exists_eq_left]
      exact ⟨rest, ⟨tail, rfl, hlength⟩, by tauto, trivial, rfl⟩
    · refine ⟨.inr rfl, ?_⟩
      rw [if_pos (by decide), if_pos rfl]
      simp only [run_bind_eq_ok, run_expect_eq_ok, run_discard_eq_ok, run_take_eq_ok, Bool.or_eq_true,
        decide_eq_true_eq, and_assoc, exists_const, exists_and_left, exists_eq_left]
      refine ⟨_, ⟨tail.take 2, ?_, ?_⟩, by tauto, tail.drop 2, rfl, ?_⟩
      · rw [← List.append_assoc, List.take_append_drop]
      · rw [List.length_take, hlength]
        rfl
      · rw [List.length_drop, hlength]

theorem run_floatTail_eq_ok {u : Unit} :
    (floatTail size bits).run bytes = .ok (u, rest) ↔ bits = 32 ∧ ∃ tail, bytes = tail ++ rest ∧
      (size = 16 ∧ tail = [] ∨ size = 18 ∧ tail = bytesOf 2 0) := by
  simp only [floatTail, run_bind_eq_ok, run_expect_eq_ok, Bool.or_eq_true, decide_eq_true_eq, and_assoc,
    exists_const, exists_and_left, exists_eq_left]
  constructor
  · rintro ⟨rfl | rfl, h⟩
    · rw [if_neg (by decide), run_expect_eq_ok, decide_eq_true_eq] at h
      exact ⟨h.1, [], h.2.symm, .inl ⟨rfl, rfl⟩⟩
    · rw [if_pos rfl] at h
      simp only [run_bind_eq_ok, run_number_eq_ok, run_expect_eq_ok, decide_eq_true_eq, and_assoc,
        exists_const, exists_and_left, exists_eq_left] at h
      obtain ⟨_, _, rfl, -, rfl, hbits, rfl⟩ := h
      exact ⟨hbits, _, rfl, .inr ⟨rfl, rfl⟩⟩
  · rintro ⟨hbits, tail, rfl, ⟨rfl, rfl⟩ | ⟨rfl, rfl⟩⟩
    · refine ⟨.inl rfl, ?_⟩
      rw [if_neg (by decide), run_expect_eq_ok, decide_eq_true_eq]
      exact ⟨hbits, rfl⟩
    · refine ⟨.inr rfl, ?_⟩
      rw [if_pos rfl]
      simp only [run_bind_eq_ok, run_number_eq_ok, run_expect_eq_ok, decide_eq_true_eq, and_assoc,
        exists_const, exists_and_left, exists_eq_left]
      exact ⟨0, rest, rfl, by norm_num, rfl, hbits, rfl⟩

theorem run_extendedTail_eq_ok {encoding : Encoding} {depth : ℕ} :
    (extendedTail size bits).run bytes = .ok ((encoding, depth), rest) ↔
      40 ≤ size ∧ ∃ valid mask identifier,
        bytes = bytesOf 2 22 ++ bytesOf 2 valid ++ mask ++ identifier ++ rest ∧ valid < 256 ^ 2 ∧
        mask.length = 4 ∧ depth = (if valid = 0 then bits else valid) ∧
        (identifier = integerIdentifier ∧ encoding = .integer ∨
          identifier = floatIdentifier ∧ encoding = .float) := by
  simp only [extendedTail, run_bind_eq_ok, run_expect_eq_ok, run_number_eq_ok, run_take_eq_ok,
    run_discard_eq_ok, decide_eq_true_eq, and_assoc, exists_const, exists_and_left, exists_eq_left]
  constructor
  · rintro ⟨hsize, _, _, rfl, -, rfl, valid, _, rfl, hvalid, _, ⟨mask, rfl, hmask⟩, identifier, _, rfl, -, h⟩
    refine ⟨hsize, valid, mask, identifier, ?_⟩
    by_cases hinteger : identifier = integerIdentifier
    · rw [if_pos hinteger, run_pure_eq_ok, Prod.mk.injEq] at h
      obtain ⟨⟨rfl, rfl⟩, rfl⟩ := h
      exact ⟨by simp only [List.append_assoc], hvalid, hmask, rfl, .inl ⟨hinteger, rfl⟩⟩
    · rw [if_neg hinteger] at h
      by_cases hfloat : identifier = floatIdentifier
      · rw [if_pos hfloat, run_pure_eq_ok, Prod.mk.injEq] at h
        obtain ⟨⟨rfl, rfl⟩, rfl⟩ := h
        exact ⟨by simp only [List.append_assoc], hvalid, hmask, rfl, .inr ⟨hfloat, rfl⟩⟩
      · rw [if_neg hfloat, run_throw_eq_ok] at h
        exact h.elim
  · rintro ⟨hsize, valid, mask, identifier, rfl, hvalid, hmask, rfl, hidentifier⟩
    simp only [List.append_assoc]
    refine ⟨hsize, 22, _, rfl, by norm_num, rfl, valid, _, rfl, hvalid, _, ⟨mask, rfl, hmask⟩, identifier,
      rest, rfl, ?_, ?_⟩
    · rcases hidentifier with ⟨rfl, -⟩ | ⟨rfl, -⟩ <;> rfl
    · rcases hidentifier with ⟨rfl, rfl⟩ | ⟨rfl, rfl⟩
      · rw [if_pos rfl, run_pure_eq_ok]
        exact ⟨rfl, rfl⟩
      · rw [if_neg (by decide), if_pos rfl, run_pure_eq_ok]
        exact ⟨rfl, rfl⟩

theorem run_headerTail_eq_ok {h : HeaderFields} {encoding : Encoding} {depth : ℕ} :
    (headerTail h.tag size h.bits).run bytes = .ok ((encoding, depth), rest) ↔
      ∃ tail, bytes = tail ++ rest ∧ Extension size h tail encoding depth := by
  rw [headerTail]
  constructor
  · intro hrun
    split_ifs at hrun with hinteger hfloat hextended
    · simp only [run_seqRight_eq_ok, run_integerTail_eq_ok, run_pure_eq_ok, Prod.mk.injEq] at hrun
      obtain ⟨-, _, ⟨tail, rfl, htail⟩, ⟨rfl, rfl⟩, rfl⟩ := hrun
      refine ⟨tail, rfl, ?_⟩
      rcases htail with ⟨hsize, rfl⟩ | ⟨hsize, hbits⟩
      · exact .plain hinteger hsize
      · exact .skipped hinteger hsize hbits
    · simp only [run_seqRight_eq_ok, run_floatTail_eq_ok, run_pure_eq_ok, Prod.mk.injEq] at hrun
      obtain ⟨-, _, ⟨hbits, tail, rfl, htail⟩, ⟨rfl, rfl⟩, rfl⟩ := hrun
      exact ⟨tail, rfl, .float hfloat htail hbits⟩
    · obtain ⟨hsize, valid, mask, identifier, rfl, hvalid, hmask, rfl, hidentifier⟩ :=
        run_extendedTail_eq_ok.1 hrun
      exact ⟨_, rfl, .valid hextended hsize hvalid hmask hidentifier⟩
    · exact (run_throw_eq_ok.1 hrun).elim
  · rintro ⟨tail, rfl, hextension⟩
    cases hextension with
    | plain htag hsize =>
      rw [if_pos htag, run_seqRight_eq_ok]
      exact ⟨(), rest, run_integerTail_eq_ok.2 ⟨[], rfl, .inl ⟨hsize, rfl⟩⟩, run_pure_eq_ok.2 ⟨rfl, rfl⟩⟩
    | skipped htag hsize hbits =>
      rw [if_pos htag, run_seqRight_eq_ok]
      exact ⟨(), rest, run_integerTail_eq_ok.2 ⟨tail, rfl, .inr ⟨hsize, hbits⟩⟩,
        run_pure_eq_ok.2 ⟨rfl, rfl⟩⟩
    | float htag htail hbits =>
      rw [if_neg (by omega), if_pos htag, run_seqRight_eq_ok]
      exact ⟨(), rest, run_floatTail_eq_ok.2 ⟨hbits, tail, rfl, htail⟩, run_pure_eq_ok.2 ⟨rfl, rfl⟩⟩
    | valid htag hsize hbits hmask hidentifier =>
      have htag' : h.tag = 0xfffe := htag
      rw [if_neg (by omega), if_neg (by omega), if_pos htag]
      exact run_extendedTail_eq_ok.2 ⟨hsize, _, _, _, rfl, hbits, hmask, rfl, hidentifier⟩

theorem run_header_eq_ok {f : Format} :
    (header size).run bytes = .ok (f, rest) ↔
      ∃ h tail, bytes = h.bytes ++ tail ++ rest ∧ Describes size h tail f := by
  simp only [header, run_bind_eq_ok, run_number_eq_ok, run_expect_eq_ok, decide_eq_true_eq, Bool.and_eq_true,
    and_assoc, exists_const, exists_and_left, exists_eq_left]
  constructor
  · rintro ⟨hsize, tag, _, rfl, htag, channels, _, rfl, hchannels, rate, _, rfl, hrate, byteRate, _, rfl,
      hbyteRate, frame, _, rfl, hframe, bits, _, rfl, hbits, hne, hcontainer, hle, -, hbytes, hmod, hpos,
      ⟨encoding, depth⟩, _, hrun, hf⟩
    obtain ⟨tail, rfl, hextension⟩ :=
      (run_headerTail_eq_ok (h := ⟨tag, channels, rate, byteRate, frame, bits⟩)).1 hrun
    obtain ⟨rfl, rfl⟩ := run_pure_eq_ok.1 hf
    refine ⟨⟨tag, channels, rate, byteRate, frame, bits⟩, tail, ?_,
      ⟨htag, hchannels, hrate, hbyteRate, hframe, hbits⟩, hsize, hne, hcontainer, hle, hbytes, hmod, hpos,
      rfl, rfl, rfl, hextension⟩
    simp only [HeaderFields.bytes, List.append_assoc]
  · rintro ⟨h, tail, rfl, hdescribes⟩
    obtain ⟨fits, hsize, hne, hcontainer, hle, hbytes, hmod, hpos, hchannels, hrate, hframe, hextension⟩ :=
      hdescribes
    obtain ⟨channels, rate, depth, container, encoding⟩ := f
    dsimp only at hchannels hrate hframe hextension
    subst hchannels hrate hframe
    have hlt : h.frame * h.rate < UInt32.size := hbytes ▸ fits.byteRate_lt
    simp only [HeaderFields.bytes, List.append_assoc]
    exact ⟨hsize, h.tag, _, rfl, fits.tag_lt, h.channels, _, rfl, fits.channels_lt, h.rate, _, rfl,
      fits.rate_lt, h.byteRate, _, rfl, fits.byteRate_lt, h.frame, _, rfl, fits.frame_lt, h.bits, _, rfl,
      fits.bits_lt, hne, hcontainer, hle, hlt, hbytes, hmod, hpos, (encoding, depth), rest,
      run_headerTail_eq_ok.2 ⟨tail, rfl, hextension⟩, run_pure_eq_ok.2 ⟨rfl, rfl⟩⟩

end

def headerChunk (size : ℕ) (h : HeaderFields) (tail : List UInt8) : List UInt8 :=
  ascii "fmt " ++ bytesOf 4 size ++ (h.bytes ++ tail)

/-- The chunks ahead of the samples, and the format before and after them. A header takes effect where it
stands; the other chunks are passed over. -/
inductive Chunks : Option Format → List UInt8 → Option Format → Prop
  | nil {format : Option Format} : Chunks format [] format
  | header {before after : Option Format} {f : Format} {size : ℕ} {h : HeaderFields} {tail more : List UInt8}
      (hsize : size < 256 ^ 4) (hdescribes : Describes size h tail f) (hmore : Chunks (some f) more after) :
      Chunks before (headerChunk size h tail ++ more) after
  | fact {before after : Option Format} {size : ℕ} {content more : List UInt8} (hsize : size < 256 ^ 4)
      (hcontent : content.length = 4) (hmore : Chunks before more after) :
      Chunks before (ascii "fact" ++ bytesOf 4 size ++ content ++ more) after
  | other {before after : Option Format} {kind content more : List UInt8} (hkind : kind.length = 4)
      (hheader : kind ≠ ascii "fmt ") (hfact : kind ≠ ascii "fact") (hdata : kind ≠ ascii "data")
      (hcontent : content.length < 256 ^ 4) (hmore : Chunks before more after) :
      Chunks before (kind ++ bytesOf 4 content.length ++ content ++ more) after

section

variable {fuel size : ℕ} {before : Option Format} {f : Format} {bytes rest : List UInt8}

theorem exists_chunks (h : (chunksUntilData fuel before).run bytes = .ok ((f, size), rest)) :
    ∃ chunks, bytes = chunks ++ (ascii "data" ++ bytesOf 4 size ++ rest) ∧ size < 256 ^ 4 ∧
      Chunks before chunks (some f) := by
  induction fuel generalizing before bytes with
  | zero => exact (run_throw_eq_ok.1 h).elim
  | succ fuel ih =>
    simp only [chunksUntilData, run_bind_eq_ok, run_take_eq_ok, run_number_eq_ok] at h
    obtain ⟨kind, _, ⟨rfl, hkind⟩, n, next, ⟨rfl, hn⟩, h⟩ := h
    split_ifs at h with hheader hfact hdata
    · obtain ⟨g, _, hrun, hnext⟩ := run_bind_eq_ok.1 h
      obtain ⟨fields, tail, rfl, hdescribes⟩ := run_header_eq_ok.1 hrun
      obtain ⟨chunks, rfl, hsize, hchunks⟩ := ih hnext
      refine ⟨_, ?_, hsize, .header hn hdescribes hchunks⟩
      simp only [headerChunk, hheader, List.append_assoc]
    · obtain ⟨content, _, hrun, hnext⟩ := run_seqRight_eq_ok.1 h
      obtain ⟨rfl, hcontent⟩ := run_take_eq_ok.1 hrun
      obtain ⟨chunks, rfl, hsize, hchunks⟩ := ih hnext
      refine ⟨_, ?_, hsize, .fact hn hcontent hchunks⟩
      simp only [hfact, List.append_assoc]
    · cases before with
      | none => exact (run_throw_eq_ok.1 h).elim
      | some g =>
        obtain ⟨⟨rfl, rfl⟩, rfl⟩ := (run_pure_eq_ok.1 h).imp_left Prod.mk.inj
        refine ⟨[], ?_, hn, .nil⟩
        simp only [hdata, List.nil_append, List.append_assoc]
    · obtain ⟨content, _, hrun, hnext⟩ := run_seqRight_eq_ok.1 h
      obtain ⟨rfl, rfl⟩ := run_take_eq_ok.1 hrun
      obtain ⟨chunks, rfl, hsize, hchunks⟩ := ih hnext
      refine ⟨_, ?_, hsize, .other hkind hheader hfact hdata hn hchunks⟩
      simp only [List.append_assoc]

/-- Each chunk uses up one unit of fuel and eight bytes, so as many units as bytes are enough. -/
theorem run_chunksUntilData {chunks : List UInt8} (hchunks : Chunks before chunks (some f))
    (hsize : size < 256 ^ 4) (hfuel : chunks.length < fuel) :
    (chunksUntilData fuel before).run (chunks ++ (ascii "data" ++ bytesOf 4 size ++ rest)) =
      .ok ((f, size), rest) := by
  obtain _ | fuel := fuel
  · exact absurd hfuel (Nat.not_lt_zero _)
  -- The induction is on the chunks, with the format behind them as an index of its own.
  generalize hafter : some f = after at hchunks
  induction hchunks generalizing fuel with
  | nil =>
    subst hafter
    simp only [chunksUntilData, run_bind_eq_ok, run_take_eq_ok, run_number_eq_ok, List.nil_append,
      List.append_assoc]
    refine ⟨_, _, ⟨rfl, rfl⟩, size, rest, ⟨rfl, hsize⟩, ?_⟩
    rw [if_neg (by decide), if_neg (by decide), if_pos rfl]
    exact run_pure_eq_ok.2 ⟨rfl, rfl⟩
  | header hn hdescribes hmore ih =>
    simp only [headerChunk, List.length_append, length_bytesOf] at hfuel
    simp only [headerChunk, chunksUntilData, run_bind_eq_ok, run_take_eq_ok, run_number_eq_ok,
      List.append_assoc]
    refine ⟨_, _, ⟨rfl, rfl⟩, _, _, ⟨rfl, hn⟩, ?_⟩
    obtain _ | fuel := fuel
    · omega
    rw [if_pos rfl, run_bind_eq_ok]
    refine ⟨_, _, run_header_eq_ok.2 ⟨_, _, (List.append_assoc _ _ _).symm, hdescribes⟩, ?_⟩
    simpa only [List.append_assoc] using ih fuel (by omega) hafter
  | fact hn hcontent hmore ih =>
    simp only [List.length_append, length_bytesOf] at hfuel
    simp only [chunksUntilData, run_bind_eq_ok, run_take_eq_ok, run_number_eq_ok, List.append_assoc]
    refine ⟨_, _, ⟨rfl, rfl⟩, _, _, ⟨rfl, hn⟩, ?_⟩
    obtain _ | fuel := fuel
    · omega
    rw [if_neg (by decide), if_pos rfl, run_seqRight_eq_ok]
    refine ⟨_, _, run_take_eq_ok.2 ⟨rfl, hcontent⟩, ?_⟩
    simpa only [List.append_assoc] using ih fuel (by omega) hafter
  | other hkind hheader hfact hdata hcontent hmore ih =>
    simp only [List.length_append, length_bytesOf] at hfuel
    simp only [chunksUntilData, run_bind_eq_ok, run_take_eq_ok, run_number_eq_ok, List.append_assoc]
    refine ⟨_, _, ⟨rfl, hkind⟩, _, _, ⟨rfl, hcontent⟩, ?_⟩
    obtain _ | fuel := fuel
    · omega
    rw [if_neg hheader, if_neg hfact, if_neg hdata, run_seqRight_eq_ok]
    refine ⟨_, _, run_take_eq_ok.2 ⟨rfl, rfl⟩, ?_⟩
    simpa only [List.append_assoc] using ih fuel (by omega) hafter

theorem Chunks.exists_header {chunks : List UInt8} {after : Option Format} (h : Chunks before chunks after) :
    after = before ∨ ∃ f size fields tail, after = some f ∧ headerChunk size fields tail <:+: chunks ∧
      Describes size fields tail f := by
  induction h with
  | nil => exact .inl rfl
  | header _ hdescribes _ ih =>
    obtain rfl | ⟨f, size, fields, tail, hafter, hinfix, hf⟩ := ih
    · exact .inr ⟨_, _, _, _, rfl, (List.prefix_append _ _).isInfix, hdescribes⟩
    · exact .inr ⟨f, size, fields, tail, hafter, List.infix_append_of_infix_right hinfix, hf⟩
  | fact _ _ _ ih | other _ _ _ _ _ _ ih =>
    refine ih.imp_right ?_
    rintro ⟨f, size, fields, tail, hafter, hinfix, hf⟩
    exact ⟨f, size, fields, tail, hafter, List.infix_append_of_infix_right hinfix, hf⟩

end

namespace Describes

variable {size : ℕ} {h : HeaderFields} {tail : List UInt8} {f : Format}

theorem container_pos (hd : Describes size h tail f) : 0 < f.container := by
  have hle := hd.bits_le
  have hne := hd.bits_ne
  rw [hd.container_eq]
  omega

theorem channels_pos (hd : Describes size h tail f) : 0 < f.channels := by
  rw [hd.channels_eq]
  exact Nat.pos_of_ne_zero hd.channels_ne

end Describes

/-- The file announces `count` samples of a format, all channels counted, and goes on with `body`. -/
structure Announces (file : List UInt8) (f : Format) (count : ℕ) (body : List UInt8) : Prop where
  exists_layout : ∃ length chunks, file = ascii "RIFF" ++ length ++ ascii "WAVE" ++ chunks ++ ascii "data"
    ++ bytesOf 4 (count * f.container) ++ body ∧ length.length = 4 ∧ Chunks none chunks (some f)
  channels_dvd : f.channels ∣ count
  size_lt : count * f.container < 256 ^ 4

theorem Announces.exists_header {file : List UInt8} {f : Format} {count : ℕ} {body : List UInt8}
    (h : Announces file f count body) :
    ∃ size fields tail, headerChunk size fields tail <:+: file ∧ Describes size fields tail f := by
  obtain ⟨length, chunks, rfl, -, hchunks⟩ := h.exists_layout
  obtain habsurd | ⟨_, size, fields, tail, hf, hinfix, hdescribes⟩ := hchunks.exists_header
  · exact nomatch habsurd
  · obtain rfl := Option.some.inj hf
    refine ⟨size, fields, tail, hinfix.trans ⟨ascii "RIFF" ++ length ++ ascii "WAVE",
      ascii "data" ++ bytesOf 4 (count * f.container) ++ body, ?_⟩, hdescribes⟩
    simp only [List.append_assoc]

def fileOf (size : ℕ) (h : HeaderFields) (tail body : List UInt8) : List UInt8 :=
  ascii "RIFF" ++ bytesOf 4 (20 + size + body.length) ++ ascii "WAVE" ++ headerChunk size h tail
    ++ ascii "data" ++ bytesOf 4 body.length ++ body

theorem announces_fileOf {size count : ℕ} {h : HeaderFields} {tail body : List UInt8} {f : Format}
    (hd : Describes size h tail f) (hsize : size < 256 ^ 4) (hdvd : f.channels ∣ count)
    (hcount : count * f.container = body.length) (hbody : body.length < 256 ^ 4) :
    Announces (fileOf size h tail body) f count body where
  exists_layout := by
    refine ⟨_, _, ?_, length_bytesOf 4 (20 + size + body.length), .header hsize hd .nil⟩
    rw [fileOf, hcount, List.append_nil]
  channels_dvd := hdvd
  size_lt := hcount ▸ hbody

theorem run_prologue_eq_ok {file : List UInt8} {f : Format} {count : ℕ} {body : List UInt8} :
    prologue.run file = .ok ((f, count), body) ↔ Announces file f count body := by
  simp only [prologue, run_bind_eq_ok, run_take_eq_ok, run_expect_eq_ok, run_discard_eq_ok, run_pure_eq_ok,
    run_get_eq_ok, decide_eq_true_eq, and_assoc, exists_const, exists_and_left, exists_eq_left]
  constructor
  · rintro ⟨_, _, rfl, -, rfl, _, ⟨length, rfl, hlength⟩, _, _, rfl, -, rfl, ⟨f, size⟩, _, hrun, hsize,
      hframes, hf, rfl⟩
    obtain ⟨rfl, rfl⟩ := Prod.mk.inj hf
    obtain ⟨chunks, rfl, hlt, hchunks⟩ := exists_chunks hrun
    have hcount := Nat.div_mul_cancel (Nat.dvd_of_mod_eq_zero hsize)
    refine ⟨⟨length, chunks, ?_, hlength, hchunks⟩, Nat.dvd_of_mod_eq_zero hframes, hcount.symm ▸ hlt⟩
    simp only [hcount, List.append_assoc]
  · intro h
    obtain ⟨size, fields, tail, -, hdescribes⟩ := h.exists_header
    obtain ⟨length, chunks, rfl, hlength, hchunks⟩ := h.exists_layout
    have hcount : count * f.container / f.container = count :=
      Nat.mul_div_cancel count hdescribes.container_pos
    simp only [List.append_assoc]
    refine ⟨_, _, rfl, rfl, rfl, _, ⟨length, rfl, hlength⟩, _, _, rfl, rfl, rfl, (f, count * f.container),
      body, ?_, Nat.mul_mod_left _ _, ?_, ?_, rfl⟩
    · simp only [← List.append_assoc (ascii "data")]
      refine run_chunksUntilData hchunks h.size_lt ?_
      simp only [List.length_append, length_bytesOf]
      omega
    · rw [hcount, Nat.mod_eq_zero_of_dvd h.channels_dvd]
    · rw [hcount]

theorem read_of_announces {file : List UInt8} {f : Format} {count : ℕ} {body : List UInt8}
    (h : Announces file f count body) : read file = (readSamples f count body).map (Prod.mk f) := by
  rw [read, run_prologue_eq_ok.2 h]
  change (readSamples f count body >>= fun r ↦ pure (f, r)) = _
  cases readSamples f count body <;> rfl

theorem read_cases (file : List UInt8) : (∃ e, read file = .fail e) ∨
    ∃ f count body, Announces file f count body ∧ read file = (readSamples f count body).map (Prod.mk f) := by
  cases hrun : prologue.run file with
  | error e =>
    refine .inl ⟨e, ?_⟩
    rw [read, hrun]
    rfl
  | ok x =>
    obtain ⟨⟨f, count⟩, body⟩ := x
    have hfile := run_prologue_eq_ok.1 hrun
    exact .inr ⟨f, count, body, hfile, read_of_announces hfile⟩

end SoundLink.Wave
