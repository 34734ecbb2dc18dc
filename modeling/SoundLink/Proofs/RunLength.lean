import SoundLink.Proofs.FrameLayout
import Mathlib.Data.Bool.Count

namespace SoundLink

variable {α : Type} {a b : α} {k n : ℕ} {xs ys : List α}

theorem replicate_infix_append (h : List.replicate k a <:+: xs ++ ys) :
    List.replicate k a <:+: xs ∨ List.replicate k a <:+: ys ∨
      ∃ i j, i + j = k ∧ List.replicate i a <:+ xs ∧ List.replicate j a <+: ys := by
  obtain h | h | ⟨us, vs, happend, hus, hvs⟩ := List.infix_append_iff.1 h
  · exact .inl h
  · exact .inr (.inl h)
  · obtain ⟨hlength, hu, hv⟩ := List.replicate_eq_append_iff.1 happend
    rw [hu] at hus
    rw [hv] at hvs
    exact .inr (.inr ⟨_, _, hlength, hus, hvs⟩)

theorem eq_of_prefix_cons (hk : 0 < k) (h : List.replicate k a <+: b :: xs) : a = b := by
  obtain ⟨k, rfl⟩ := Nat.exists_eq_succ_of_ne_zero hk.ne'
  exact (List.cons_prefix_cons.1 h).1

theorem eq_of_infix_replicate (hk : 0 < k) (h : List.replicate k a <:+: List.replicate n b) : a = b :=
  List.eq_of_mem_replicate (h.subset (List.mem_replicate.2 ⟨hk.ne', rfl⟩))

theorem replicate_prefix_append (hk : 0 < k) (hn : 0 < n)
    (h : List.replicate k a <+: List.replicate n b ++ xs) : a = b ∧ List.replicate (k - n) a <+: xs := by
  obtain rfl : a = b := by
    obtain ⟨n, rfl⟩ := Nat.exists_eq_succ_of_ne_zero hn.ne'
    exact eq_of_prefix_cons hk h
  refine ⟨rfl, ?_⟩
  obtain hle | hle := Nat.le_total k n
  · rw [Nat.sub_eq_zero_of_le hle]
    exact List.nil_prefix
  · rwa [← Nat.add_sub_cancel' hle, List.replicate_add, List.prefix_append_right_inj] at h

namespace LineCode

variable {b c d : Bool} {bs : List Bool}

theorem replicate_prefix_change (hn : 0 < n) (hd : d ≠ b)
    (h : List.replicate k c <+: List.replicate n b ++ d :: bs) : k ≤ n := by
  by_contra hlt
  obtain ⟨hb, hrest⟩ := replicate_prefix_append (by omega) hn h
  exact hd ((eq_of_prefix_cons (by omega) hrest).symm.trans hb)

theorem replicate_suffix_change (hd : d ≠ b)
    (h : List.replicate k c <:+ List.replicate n b ++ d :: bs) : List.replicate k c <:+ d :: bs := by
  induction n with
  | zero => exact h
  | succ n ih =>
    rw [List.replicate_succ, List.cons_append] at h
    obtain hall | h := List.suffix_cons_iff.1 h
    · have hb : b ∈ List.replicate k c := by simp [hall]
      have hd' : d ∈ List.replicate k c := by simp [hall]
      exact absurd ((List.eq_of_mem_replicate hd').trans (List.eq_of_mem_replicate hb).symm) hd
    · exact ih h

theorem replicate_infix_change (hd : d ≠ b)
    (h : List.replicate k c <:+: List.replicate n b ++ d :: bs) :
    k ≤ n ∨ List.replicate k c <:+: d :: bs := by
  obtain h | h | ⟨i, j, rfl, hi, hj⟩ := replicate_infix_append h
  · exact .inl (by simpa using h.length_le)
  · exact .inr h
  · obtain rfl | hipos := Nat.eq_zero_or_pos i
    · rw [Nat.zero_add]
      exact .inr hj.isInfix
    · obtain rfl | hjpos := Nat.eq_zero_or_pos j
      · exact .inl (by simpa using hi.length_le)
      · exact absurd ((eq_of_prefix_cons hjpos hj).symm.trans (eq_of_infix_replicate hipos hi.isInfix)) hd

theorem exists_mem_runsFrom (hn : 0 < n) (h : List.replicate k c <:+: List.replicate n b ++ bs) :
    ∃ r ∈ runsFrom b n bs, k ≤ r := by
  induction bs generalizing b n with
  | nil =>
    rw [List.append_nil] at h
    exact ⟨n, List.mem_singleton_self n, by simpa using h.length_le⟩
  | cons d bs ih =>
    rw [runsFrom]
    split_ifs with hd
    · subst hd
      refine ih n.succ_pos ?_
      rwa [List.replicate_succ', List.append_assoc]
    · obtain hle | h := replicate_infix_change hd h
      · exact ⟨n, List.mem_cons_self, hle⟩
      · obtain ⟨r, hr, hle⟩ := ih Nat.one_pos h
        exact ⟨r, List.mem_cons_of_mem _ hr, hle⟩

theorem exists_head_runsFrom (hn : 0 < n) (h : List.replicate k c <+: List.replicate n b ++ bs) :
    ∃ r ∈ (runsFrom b n bs).head?, k ≤ r := by
  induction bs generalizing n with
  | nil =>
    rw [List.append_nil] at h
    exact ⟨n, rfl, by simpa using h.length_le⟩
  | cons d bs ih =>
    rw [runsFrom]
    split_ifs with hd
    · subst hd
      refine ih n.succ_pos ?_
      rwa [List.replicate_succ', List.append_assoc]
    · exact ⟨n, rfl, replicate_prefix_change hn hd h⟩

theorem runsFrom_ne_nil (b : Bool) (n : ℕ) (bs : List Bool) : runsFrom b n bs ≠ [] := by
  induction bs generalizing n with
  | nil => exact List.cons_ne_nil _ _
  | cons d bs ih =>
    rw [runsFrom]
    split_ifs
    · exact ih (n + 1)
    · exact List.cons_ne_nil _ _

theorem exists_getLast_runsFrom (hn : 0 < n) (h : List.replicate k c <:+ List.replicate n b ++ bs) :
    ∃ r ∈ (runsFrom b n bs).getLast?, k ≤ r := by
  induction bs generalizing b n with
  | nil =>
    rw [List.append_nil] at h
    exact ⟨n, rfl, by simpa using h.length_le⟩
  | cons d bs ih =>
    rw [runsFrom]
    split_ifs with hd
    · subst hd
      refine ih n.succ_pos ?_
      rwa [List.replicate_succ', List.append_assoc]
    · obtain ⟨r, hr, hle⟩ := ih Nat.one_pos (replicate_suffix_change hd h)
      refine ⟨r, ?_, hle⟩
      rwa [List.getLast?_cons_of_ne_nil (runsFrom_ne_nil d 1 bs)]

variable {x : UInt8}

theorem runs_sent (x : UInt8) : (∀ r ∈ runs (sent x), r ≤ 3) ∧
    (∀ r ∈ (runs (sent x)).head?, r ≤ 2) ∧ ∀ r ∈ (runs (sent x)).getLast?, r ≤ 2 := by
  have hadmissible : isAdmissible (encode x) = true :=
    (List.mem_filter.1 (mem_admissible_of_mem_codewords (encode_mem x))).2
  simpa [sent, isAdmissible, Option.all_eq_true, and_assoc] using hadmissible

theorem sent_eq_cons (x : UInt8) : ∃ b bs, sent x = b :: bs := by
  refine List.exists_cons_of_ne_nil (List.length_pos_iff.1 ?_)
  rw [length_sent]
  decide

theorem le_of_infix_sent (h : List.replicate k c <:+: sent x) : k ≤ 3 := by
  obtain ⟨b, bs, hbits⟩ := sent_eq_cons x
  rw [hbits] at h
  obtain ⟨r, hr, hle⟩ := exists_mem_runsFrom (n := 1) Nat.one_pos h
  rw [← runs, ← hbits] at hr
  exact hle.trans ((runs_sent x).1 r hr)

theorem le_of_prefix_sent (h : List.replicate k c <+: sent x) : k ≤ 2 := by
  obtain ⟨b, bs, hbits⟩ := sent_eq_cons x
  rw [hbits] at h
  obtain ⟨r, hr, hle⟩ := exists_head_runsFrom (n := 1) Nat.one_pos h
  rw [← runs, ← hbits] at hr
  exact hle.trans ((runs_sent x).2.1 r hr)

theorem le_of_suffix_sent (h : List.replicate k c <:+ sent x) : k ≤ 2 := by
  obtain ⟨b, bs, hbits⟩ := sent_eq_cons x
  rw [hbits] at h
  obtain ⟨r, hr, hle⟩ := exists_getLast_runsFrom (n := 1) Nat.one_pos h
  rw [← runs, ← hbits] at hr
  exact hle.trans ((runs_sent x).2.2 r hr)

theorem le_of_prefix_message {bytes : List UInt8} (h : List.replicate k c <+: bytes.flatMap sent) :
    k ≤ 2 := by
  cases bytes with
  | nil => exact le_trans (by simpa using h.length_le) (Nat.zero_le 2)
  | cons x bytes =>
    by_contra hlong
    have hthree : List.replicate 3 c <+: List.replicate k c :=
      List.prefix_replicate_iff.2 ⟨by rw [List.length_replicate]; omega, by simp⟩
    have hshort : (List.replicate 3 c).length ≤ (sent x).length := by
      rw [length_sent, List.length_replicate]
      decide
    rw [List.flatMap_cons] at h
    have hin := List.prefix_of_prefix_length_le (hthree.trans h) (List.prefix_append _ _) hshort
    exact absurd (le_of_prefix_sent hin) (by decide)

theorem le_of_infix_message {bytes : List UInt8} (h : List.replicate k c <:+: bytes.flatMap sent) :
    k ≤ 4 := by
  induction bytes with
  | nil => exact le_trans (by simpa using h.length_le) (Nat.zero_le 4)
  | cons x bytes ih =>
    rw [List.flatMap_cons] at h
    obtain h | h | ⟨i, j, rfl, hi, hj⟩ := replicate_infix_append h
    · exact (le_of_infix_sent h).trans (by decide)
    · exact ih h
    · exact Nat.add_le_add (le_of_suffix_sent hi) (le_of_prefix_message hj)

def disparity (bits : List Bool) : ℤ := bits.count true - bits.count false

theorem disparity_append (bs cs : List Bool) : disparity (bs ++ cs) = disparity bs + disparity cs := by
  simp only [disparity, List.count_append]
  push_cast
  ring

theorem abs_disparity_sent_le (x : UInt8) : |disparity (sent x)| ≤ 2 := by
  have hweight : weight (encode x) = 5 ∨ weight (encode x) = 4 ∨ weight (encode x) = 6 := by
    obtain h | h := List.mem_append.1 (List.mem_of_mem_take (encode_mem x))
    · exact .inl (by simpa using (List.mem_filter.1 h).2)
    · exact .inr (by simpa using (List.mem_filter.1 h).2)
  have hcount : (sent x).count false + (sent x).count true = 10 :=
    (List.count_not_add_count (sent x) true).trans (length_sent x)
  have hones : (sent x).count true = weight (encode x) := rfl
  rw [disparity, abs_le]
  omega

theorem abs_disparity_message_le (bytes : List UInt8) :
    |disparity (bytes.flatMap sent)| ≤ 2 * bytes.length := by
  induction bytes with
  | nil => simp [disparity]
  | cons x bytes ih =>
    have hx := abs_disparity_sent_le x
    rw [List.flatMap_cons, disparity_append, List.length_cons]
    rw [abs_le] at hx ih ⊢
    push_cast
    omega

end LineCode

def stretch (slots : List (ℕ × Bool)) : List Bool := slots.flatMap fun s ↦ List.replicate s.1 s.2

section

variable {W : ℕ} {bit : Bool} {slots : List (ℕ × Bool)}

theorem stretch_cons (w : ℕ) (b : Bool) (slots : List (ℕ × Bool)) :
    stretch ((w, b) :: slots) = List.replicate w b ++ stretch slots := rfl

theorem exists_prefix_slots (hslots : ∀ s ∈ slots, 0 < s.1 ∧ s.1 ≤ W)
    (h : List.replicate k bit <+: stretch slots) :
    ∃ n, List.replicate n bit <+: slots.map Prod.snd ∧ k ≤ n * W := by
  induction slots generalizing k with
  | nil => exact ⟨0, List.nil_prefix, le_trans (by simpa [stretch] using h.length_le) (Nat.zero_le _)⟩
  | cons s slots ih =>
    obtain ⟨w, b⟩ := s
    obtain ⟨⟨hpos, hle⟩, hrest⟩ := List.forall_mem_cons.1 hslots
    obtain rfl | hk := Nat.eq_zero_or_pos k
    · exact ⟨0, List.nil_prefix, Nat.zero_le _⟩
    · rw [stretch_cons] at h
      obtain ⟨rfl, hmore⟩ := replicate_prefix_append hk hpos h
      obtain ⟨n, hn, hkn⟩ := ih hrest hmore
      refine ⟨n + 1, List.cons_prefix_cons.2 ⟨rfl, hn⟩, ?_⟩
      rw [Nat.succ_mul]
      omega

theorem exists_infix_slots (hslots : ∀ s ∈ slots, 0 < s.1 ∧ s.1 ≤ W)
    (h : List.replicate k bit <:+: stretch slots) :
    ∃ n, List.replicate n bit <:+: slots.map Prod.snd ∧ k ≤ n * W := by
  induction slots with
  | nil => exact ⟨0, List.nil_infix, le_trans (by simpa [stretch] using h.length_le) (Nat.zero_le _)⟩
  | cons s slots ih =>
    obtain ⟨w, b⟩ := s
    obtain ⟨⟨-, hle⟩, hrest⟩ := List.forall_mem_cons.1 hslots
    rw [stretch_cons] at h
    -- a run that takes samples of the first slot and goes on after it, or does not
    have hspan : ∀ i j, i ≤ w → (0 < i → bit = b) → List.replicate j bit <+: stretch slots →
        ∃ n, List.replicate n bit <:+: b :: slots.map Prod.snd ∧ i + j ≤ n * W := by
      intro i j hi hbit hj
      obtain ⟨n, hn, hjn⟩ := exists_prefix_slots hrest hj
      obtain rfl | hpos := Nat.eq_zero_or_pos i
      · exact ⟨n, hn.isInfix.trans (List.suffix_cons _ _).isInfix, by rwa [Nat.zero_add]⟩
      · refine ⟨n + 1, (List.cons_prefix_cons.2 ⟨hbit hpos, hn⟩).isInfix, ?_⟩
        rw [Nat.succ_mul]
        omega
    obtain h | h | ⟨i, j, rfl, hi, hj⟩ := replicate_infix_append h
    · obtain ⟨hkw, -⟩ := List.infix_replicate_iff.1 h
      rw [List.length_replicate] at hkw
      exact hspan k 0 hkw (fun hk ↦ eq_of_infix_replicate hk h) List.nil_prefix
    · obtain ⟨n, hn, hkn⟩ := ih hrest h
      exact ⟨n, hn.trans (List.suffix_cons _ _).isInfix, hkn⟩
    · exact hspan i j (by simpa using hi.length_le)
        (fun hpos ↦ eq_of_infix_replicate hpos hi.isInfix) hj

end

def slotsOf (size : ℕ) (bytes : List UInt8) : List (ℕ × Bool) :=
  (bytes.flatMap LineCode.sent).map fun bit ↦ (size, bit)

theorem stretch_slotsOf (size : ℕ) (bytes : List UInt8) :
    stretch (slotsOf size bytes) = bytes.flatMap (byteBits size) := by
  simp only [stretch, slotsOf, List.flatMap_map, List.flatMap_assoc]
  rfl

namespace Modulator

variable {m : Modulator}

def slots (m : Modulator) (header : FrameHeader) (payload : List UInt8) : List (ℕ × Bool) :=
  slotsOf m.headerSize header.bytes ++ slotsOf m.size (payload ++ [m.crc.checksum payload])

theorem stretch_slots (m : Modulator) (header : FrameHeader) (payload : List UInt8) :
    stretch (m.slots header payload) = m.frameBits header payload := by
  rw [slots, stretch, List.flatMap_append, ← stretch, ← stretch, stretch_slotsOf, stretch_slotsOf]
  simp [frameBits]

theorem map_snd_slots (m : Modulator) (header : FrameHeader) (payload : List UInt8) :
    (m.slots header payload).map Prod.snd =
      (header.bytes ++ (payload ++ [m.crc.checksum payload])).flatMap LineCode.sent := by
  simp [slots, slotsOf]

theorem slots_width (hsize : 0 < m.size) (hheader : 0 < m.headerSize) {header : FrameHeader}
    {payload : List UInt8} {slot : ℕ × Bool} (h : slot ∈ m.slots header payload) :
    0 < slot.1 ∧ slot.1 ≤ max m.headerSize m.size := by
  obtain h | h := List.mem_append.1 h
  · obtain ⟨bit, -, rfl⟩ := List.mem_map.1 h
    exact ⟨hheader, le_max_left _ _⟩
  · obtain ⟨bit, -, rfl⟩ := List.mem_map.1 h
    exact ⟨hsize, le_max_right _ _⟩

theorem tone_injective {a : Sample} (ha : 0 < a) : Function.Injective (tone a) := by
  have hpos : 0 < a.toInt := Int32.lt_iff_toInt_lt.1 ha
  intro b c h
  have hlevel := congrArg Int32.toInt h
  rw [tone_toInt hpos, tone_toInt hpos] at hlevel
  cases b <;> cases c <;> simp at hlevel ⊢ <;> omega

theorem le_of_infix_frame {header : FrameHeader} {payload : List UInt8} {s : Sample}
    (hamplitude : 0 < m.amplitude) (hsize : 0 < m.size) (hheader : 0 < m.headerSize)
    (h : List.replicate k s <:+: (m.frameBits header payload).map (tone m.amplitude)) :
    k ≤ 4 * max m.headerSize m.size := by
  obtain ⟨bits, hbits, hs⟩ := List.infix_map_iff.1 h
  obtain ⟨bit, hbit⟩ : ∃ bit, bits = List.replicate k bit := by
    have hlength : k = bits.length := by simpa using congrArg List.length hs
    cases bits with
    | nil => exact ⟨false, hlength ▸ rfl⟩
    | cons bit bits =>
      refine ⟨bit, List.eq_replicate_iff.2 ⟨hlength.symm, fun b hb ↦ tone_injective hamplitude ?_⟩⟩
      have hsame : ∀ b ∈ bit :: bits, tone m.amplitude b = s := fun b hb ↦
        List.eq_of_mem_replicate (hs ▸ List.mem_map_of_mem hb)
      rw [hsame b hb, hsame bit List.mem_cons_self]
  rw [hbit, ← stretch_slots] at hbits
  obtain ⟨n, hn, hk⟩ := exists_infix_slots (fun _ ↦ slots_width hsize hheader) hbits
  rw [map_snd_slots] at hn
  exact hk.trans (Nat.mul_le_mul_right _ (LineCode.le_of_infix_message hn))

/-- Of the codewords of any bytes, no five bits in a row are equal, and in each beginning of whole
codewords ones and zeros differ by no more than two for each of them. So no level of a frame of a packet,
after its preamble and before its silence, lasts for more samples than four of its longest bits. -/
theorem changes_within_four_bits :
    (∀ bytes : List UInt8, (∀ bit, ¬List.replicate 5 bit <:+: bytes.flatMap LineCode.sent) ∧
      ∀ sent, sent <+: bytes → |LineCode.disparity (sent.flatMap LineCode.sent)| ≤ 2 * sent.length) ∧
    ∀ m : Modulator, 0 < m.amplitude → 0 < m.size → 0 < m.headerSize →
      ∀ bytes sound, m.modulate bytes = .ok sound →
        ∀ i part, (chunks m.bytesPerFrame bytes)[i]? = some part → ∃ body,
          (m.preamble ++ body ++ List.replicate m.interval 0).length = m.frameSamples part.length ∧
          m.preamble ++ body ++ List.replicate m.interval 0 <+:
            sound.drop (i * m.frameSamples m.bytesPerFrame) ∧
          ∀ k s, List.replicate k s <:+: body → k ≤ 4 * max m.headerSize m.size := by
  refine ⟨fun bytes ↦ ⟨fun bit h ↦ ?_, fun sent _ ↦ LineCode.abs_disparity_message_le sent⟩, ?_⟩
  · exact absurd (LineCode.le_of_infix_message h) (by decide)
  · intro m hamplitude hsize hheader bytes sound hsound i part hi
    obtain ⟨-, -, rfl⟩ := modulate_eq_ok_iff.1 hsound
    obtain ⟨hlength, hframe⟩ := body_prefix_drop_sound hi
    exact ⟨_, hlength, hframe, fun k s ↦ le_of_infix_frame hamplitude hsize hheader⟩

theorem changes_within_four_bits_two_frames :
    let m := Config.Phy.modulator { bytesPerFrame := 2, carrier := { size := 2 } }
    (0 < m.amplitude ∧ 0 < m.size ∧ 0 < m.headerSize) ∧
      ∃ sound, m.modulate [1, 2, 3] = .ok sound ∧ ∃ body, body.length = 100 ∧
        m.preamble ++ body ++ List.replicate m.interval 0 <+: sound.drop (m.frameSamples 2) ∧
        ∀ k s, List.replicate k s <:+: body → k ≤ 12 := by
  intro m
  have hamplitude : 0 < m.amplitude := by decide +kernel
  have hsize : 0 < m.size := by decide
  have hheader : 0 < m.headerSize := by decide
  have hsound : m.modulate [1, 2, 3] = .ok (m.sound [1, 2, 3]) :=
    modulate_eq_ok_iff.2 ⟨by decide, by decide, rfl⟩
  obtain ⟨body, hlength, hframe, hlevel⟩ := changes_within_four_bits.2 m hamplitude hsize hheader _ _ hsound
    1 [3] (by decide +kernel)
  refine ⟨⟨hamplitude, hsize, hheader⟩, _, hsound, body, ?_, by rwa [Nat.one_mul] at hframe, hlevel⟩
  have hparts : m.preamble.length = 40 ∧ m.interval = 64 ∧ m.frameSamples 1 = 204 := by decide +kernel
  simp only [List.length_append, List.length_replicate, List.length_singleton] at hlength
  omega

end Modulator

end SoundLink
