import SoundLink.Proofs.PolynomialDivision
import Mathlib.RingTheory.Polynomial.DegreeLT

namespace SoundLink

open Polynomial

namespace Bits

def flip (places : Finset ℕ) (bits : List Bool) : List Bool :=
  bits.mapIdx fun i b ↦ b ^^ decide (i ∈ places)

/-- Bits as a polynomial over the field of two elements, the last one its constant term. -/
noncomputable def word : List Bool → (ZMod 2)[X]
  | [] => 0
  | b :: bs => (if b then X ^ bs.length else 0) + word bs

noncomputable def pattern (n : ℕ) (places : Finset ℕ) : (ZMod 2)[X] :=
  ∑ i ∈ places, X ^ (n - 1 - i)

theorem word_append (xs ys : List Bool) : word (xs ++ ys) = word xs * X ^ ys.length + word ys := by
  induction xs with
  | nil => simp [word]
  | cons b xs ih =>
    rw [List.cons_append, word, word, ih, List.length_append, pow_add]
    split_ifs <;> ring

@[simp] theorem length_ofByte (b : UInt8) : (ofByte b).length = 8 := by simp [ofByte]

@[simp] theorem length_ofBytes (bytes : List UInt8) : (ofBytes bytes).length = 8 * bytes.length := by
  simp [ofBytes, Nat.mul_comm]

@[simp] theorem length_flip (places : Finset ℕ) (bits : List Bool) :
    (flip places bits).length = bits.length := List.length_mapIdx

theorem word_ofByte (b : UInt8) : word (ofByte b) = polynomial b := by
  have hbits : ofByte b = [b.toNat.testBit 7, b.toNat.testBit 6, b.toNat.testBit 5,
      b.toNat.testBit 4, b.toNat.testBit 3, b.toNat.testBit 2, b.toNat.testBit 1,
      b.toNat.testBit 0] := rfl
  simp only [hbits, word, polynomial, Finset.sum_range_succ, Finset.sum_range_zero, List.length_cons,
    List.length_nil]
  ring

theorem word_ofBytes (bytes : List UInt8) : word (ofBytes bytes) = message bytes := by
  induction bytes with
  | nil => rfl
  | cons b bytes ih =>
    have hcons : ofBytes (b :: bytes) = ofByte b ++ ofBytes bytes := rfl
    rw [hcons, word_append, ih, word_ofByte, length_ofBytes, message]

theorem message_concat (bytes : List UInt8) (b : UInt8) :
    message (bytes ++ [b]) = message bytes * X ^ 8 + polynomial b := by
  have hbytes : ofBytes (bytes ++ [b]) = ofBytes bytes ++ ofByte b := by simp [ofBytes]
  rw [← word_ofBytes, hbytes, word_append, word_ofBytes, word_ofByte, length_ofByte]

theorem word_mapIdx (places : Finset ℕ) (k : ℕ) (bits : List Bool) :
    word (bits.mapIdx fun i b ↦ b ^^ decide (k + i ∈ places)) =
      word bits + ∑ i ∈ Finset.range bits.length,
        if k + i ∈ places then X ^ (bits.length - 1 - i) else 0 := by
  induction bits generalizing k with
  | nil => simp [word]
  | cons b bits ih =>
    have hxor : (if b ^^ decide (k ∈ places) then (X : (ZMod 2)[X]) ^ bits.length else 0) =
        (if b then X ^ bits.length else 0) + if k ∈ places then X ^ bits.length else 0 := by
      cases b <;> by_cases hk : k ∈ places <;> simp [hk, CharTwo.add_self_eq_zero]
    have hsum : ∀ i, (if k + (i + 1) ∈ places then
          (X : (ZMod 2)[X]) ^ (bits.length + 1 - 1 - (i + 1)) else 0) =
        if k + 1 + i ∈ places then X ^ (bits.length - 1 - i) else 0 := fun i ↦ by
      rw [show k + (i + 1) = k + 1 + i by omega,
        show bits.length + 1 - 1 - (i + 1) = bits.length - 1 - i by omega]
    rw [mapIdx_cons_add fun i b ↦ b ^^ decide (i ∈ places), word, word, ih, List.length_mapIdx,
      hxor, List.length_cons, Finset.sum_range_succ', Finset.sum_congr rfl fun i _ ↦ hsum i]
    simp only [Nat.add_zero, Nat.add_sub_cancel, Nat.sub_zero]
    ring

theorem word_flip {places : Finset ℕ} {bits : List Bool} (h : ∀ i ∈ places, i < bits.length) :
    word (flip places bits) = word bits + pattern bits.length places := by
  have hsubset : Finset.range bits.length ∩ places = places :=
    Finset.inter_eq_right.2 fun i hi ↦ Finset.mem_range.2 (h i hi)
  have hword := word_mapIdx places 0 bits
  simp only [Nat.zero_add] at hword
  rw [flip, hword, Finset.sum_ite_mem, hsubset, pattern]

theorem pattern_eq_mul {n k : ℕ} {places : Finset ℕ} (hne : places.Nonempty)
    (hplaces : ∀ i ∈ places, i < n) (hburst : ∀ i ∈ places, i ∈ Set.Ico k (k + 8)) :
    ∃ burst : (ZMod 2)[X], burst ≠ 0 ∧ burst.degree < 8 ∧ ∃ m, pattern n places = burst * X ^ m := by
  let last := places.max' hne
  have hle : ∀ i ∈ places, i ≤ last := fun i hi ↦ places.le_max' i hi
  have hlast : last ∈ places := places.max'_mem hne
  refine ⟨∑ i ∈ places, X ^ (last - i), fun hzero ↦ ?_, ?_, n - 1 - last, ?_⟩
  · -- the last place is the constant term
    have hcoeff := congrArg (coeff · 0) hzero
    simp only [finsetSum_coeff, coeff_X_pow, coeff_zero] at hcoeff
    rw [Finset.sum_eq_single last] at hcoeff
    · simp at hcoeff
    · intro i hi hne
      have := hle i hi
      rw [if_neg (by omega)]
    · exact fun h ↦ absurd hlast h
  · refine mem_degreeLT.1 (Submodule.sum_mem _ fun i hi ↦ mem_degreeLT.2 ?_)
    have hi := (hburst i hi).1
    have hlast := (hburst last hlast).2
    rw [degree_X_pow]
    exact_mod_cast (by omega : last - i < 8)
  · rw [pattern, Finset.sum_mul]
    refine Finset.sum_congr rfl fun i hi ↦ ?_
    have := hle i hi
    have := hplaces last hlast
    rw [← pow_add]
    congr 1
    omega

theorem eval_one_pattern (n : ℕ) (places : Finset ℕ) :
    (pattern n places).eval 1 = places.card := by
  simp [pattern, eval_finsetSum]

end Bits

namespace Crc

variable {P : UInt8} {places : Finset ℕ} {n : ℕ}

/-- A message with its check is a multiple of the generator, and with no other byte. -/
theorem checksum_eq_iff_dvd (P : UInt8) (bytes : List UInt8) (check : UInt8) :
    (ofPolynomial P).checksum bytes = check ↔ generator P ∣ Bits.message (bytes ++ [check]) := by
  have hregister : residue P ((ofPolynomial P).checksum bytes) =
      AdjoinRoot.mk _ (Bits.message bytes * X ^ 8) := by
    rw [checksum, residue_updateBytes, residue, Bits.polynomial_zero, map_zero, zero_mul, zero_add,
      map_mul, map_pow, AdjoinRoot.mk_X]
  rw [← residue_inj (P := P), hregister, residue, ← sub_eq_zero, ← map_sub, AdjoinRoot.mk_eq_zero,
    Bits.message_concat, CharTwo.sub_eq_add]

theorem not_dvd_burst {k : ℕ} (hodd : P &&& 1 ≠ 0) (hne : places.Nonempty)
    (hplaces : ∀ i ∈ places, i < n) (hburst : ∀ i ∈ places, i ∈ Set.Ico k (k + 8)) :
    ¬generator P ∣ Bits.pattern n places := by
  obtain ⟨burst, hburst, hdegree, m, hpattern⟩ := Bits.pattern_eq_mul hne hplaces hburst
  rw [hpattern]
  intro hdvd
  have hshorter := (isCoprime_X_pow hodd m).dvd_of_dvd_mul_right hdvd
  exact hburst (eq_zero_of_dvd_of_degree_lt hshorter (by rwa [degree_generator]))

theorem not_dvd_of_odd (hroot : (generator P).eval 1 = 0) (hcard : Odd places.card) :
    ¬generator P ∣ Bits.pattern n places := by
  intro hdvd
  have hzero := eval_eq_zero_of_dvd_of_eval_eq_zero hdvd hroot
  rw [Bits.eval_one_pattern, ZMod.natCast_eq_zero_iff_even] at hzero
  exact Nat.not_even_iff_odd.2 hcard hzero

theorem eval_one_generator : (generator defaultPolynomial).eval 1 = 0 := by
  have hterm (i : ℕ) :
      (if defaultPolynomial.toNat.testBit i then (X : (ZMod 2)[X]) ^ i else 0).eval 1 =
        if defaultPolynomial.toNat.testBit i then 1 else 0 := by
    split_ifs <;> simp
  rw [generator, Bits.polynomial, eval_add, eval_finsetSum, Finset.sum_congr rfl fun i _ ↦ hterm i,
    eval_pow, eval_X, one_pow]
  decide

/-- A change of a message with its check is told by the check if it is kept within eight bits and the
generator has a constant term, and, with the default polynomial, if an odd number of bits changes. -/
theorem detects_changes (P : UInt8) (data : List UInt8) {places : Finset ℕ}
    (hplaces : ∀ i ∈ places, i < 8 * (data.length + 1)) :
    let sent := Bits.ofBytes (data ++ [(ofPolynomial P).checksum data])
    (∃ data' check, Bits.ofBytes (data' ++ [check]) = Bits.flip places sent) ∧
      ∀ data' check, Bits.ofBytes (data' ++ [check]) = Bits.flip places sent →
        (P &&& 1 ≠ 0 → places.Nonempty → (∃ k, ∀ i ∈ places, i ∈ Set.Ico k (k + 8)) →
          (ofPolynomial P).checksum data' ≠ check) ∧
        (P = defaultPolynomial → Odd places.card → (ofPolynomial P).checksum data' ≠ check) := by
  intro sent
  have hlength : sent.length = 8 * (data.length + 1) := by simp [sent]
  refine ⟨?_, fun data' check hreceived ↦ ?_⟩
  · have hbytes := Bits.ofBytes_chunks (Bits.flip places sent)
    have hpadding : Bits.padding (Bits.flip places sent) = [] := by
      simp [Bits.padding, hlength]
    rw [hpadding, List.append_nil] at hbytes
    obtain hnil | ⟨data', check, hconcat⟩ :=
      List.eq_nil_or_concat ((chunks 8 (Bits.flip places sent)).map Bits.toByte)
    · have hzero := congrArg List.length hbytes
      rw [hnil, Bits.length_flip, hlength] at hzero
      simp [Bits.ofBytes] at hzero
    · rw [hconcat] at hbytes
      exact ⟨data', check, by simpa using hbytes⟩
  · have hmessage : Bits.message (data' ++ [check]) =
        Bits.message (data ++ [(ofPolynomial P).checksum data]) +
          Bits.pattern (8 * (data.length + 1)) places := by
      rw [← Bits.word_ofBytes, hreceived, Bits.word_flip (by rwa [hlength]), hlength,
        Bits.word_ofBytes]
    have hmissed : (ofPolynomial P).checksum data' = check ↔
        generator P ∣ Bits.pattern (8 * (data.length + 1)) places := by
      rw [checksum_eq_iff_dvd, hmessage, dvd_add_right ((checksum_eq_iff_dvd P data _).1 rfl)]
    constructor
    · intro hodd hne hwithin
      obtain ⟨k, hburst⟩ := hwithin
      exact mt hmissed.1 (not_dvd_burst hodd hne hplaces hburst)
    · rintro rfl hcard
      exact mt hmissed.1 (not_dvd_of_odd eval_one_generator hcard)

theorem detects_changes_three_bits :
    let sent := Bits.ofBytes [0x31, (ofPolynomial defaultPolynomial).checksum [0x31]]
    ((∀ i ∈ ({6, 7, 8} : Finset ℕ), i < 8 * 2 ∧ i ∈ Set.Ico 6 (6 + 8)) ∧
      Bits.ofBytes [0x32, (ofPolynomial defaultPolynomial).checksum [0x31] ^^^ 0x80] =
        Bits.flip {6, 7, 8} sent ∧
      (ofPolynomial defaultPolynomial).checksum [0x32] ≠
        (ofPolynomial defaultPolynomial).checksum [0x31] ^^^ 0x80) ∧
    ((∀ i ∈ ({0, 3, 15} : Finset ℕ), i < 8 * 2) ∧ Odd ({0, 3, 15} : Finset ℕ).card ∧
      Bits.ofBytes [0xa1, (ofPolynomial defaultPolynomial).checksum [0x31] ^^^ 0x01] =
        Bits.flip {0, 3, 15} sent ∧
      (ofPolynomial defaultPolynomial).checksum [0xa1] ≠
        (ofPolynomial defaultPolynomial).checksum [0x31] ^^^ 0x01) := by
  intro sent
  have hwithin : ∀ i ∈ ({6, 7, 8} : Finset ℕ), i < 8 * 2 ∧ i ∈ Set.Ico 6 (6 + 8) := by
    simp
  have hnear : Bits.ofBytes [0x32, (ofPolynomial defaultPolynomial).checksum [0x31] ^^^ 0x80] =
      Bits.flip {6, 7, 8} sent := by decide +kernel
  have hplaces : ∀ i ∈ ({0, 3, 15} : Finset ℕ), i < 8 * 2 := by decide
  have hfar : Bits.ofBytes [0xa1, (ofPolynomial defaultPolynomial).checksum [0x31] ^^^ 0x01] =
      Bits.flip {0, 3, 15} sent := by decide +kernel
  refine ⟨⟨hwithin, hnear, ?_⟩, hplaces, by decide, hfar, ?_⟩
  · exact ((detects_changes defaultPolynomial [0x31] fun i hi ↦ (hwithin i hi).1).2 [0x32] _
      hnear).1 (by decide) (by decide) ⟨6, fun i hi ↦ (hwithin i hi).2⟩
  · exact ((detects_changes defaultPolynomial [0x31] hplaces).2 [0xa1] _ hfar).2 rfl (by decide)

end Crc

end SoundLink
