import SoundLink.Json.Number
import SoundLink.Proofs.JsonLexing
import SoundLink.Proofs.Rounding

namespace SoundLink

namespace Binary

variable {num den : ℕ}

theorem grid_le (num den : ℕ) : grid num den ≤ max 0 ((num.log2 : ℤ) - 52) := by
  have hmin : Format.double.minExponent = -1074 := by decide
  have hprec : (Format.double.precision : ℤ) = 53 := rfl
  unfold grid
  dsimp only
  split_ifs <;> omega

theorem isInfinite_round (hnum : num < 2 ^ 200) : (round .double false num den).isInfinite = false := by
  by_cases hzero : num = 0
  · rw [hzero]
    rfl
  have hlog : num.log2 < 200 := (Nat.log2_lt hzero).2 hnum
  have hgrid := grid_le num den
  have hmax : Format.double.maxExponent = 971 := by decide
  obtain ⟨e, he, m, -, hround⟩ := round_eq den hzero
  rw [hround, if_neg (by omega)]
  rfl

theorem scaled_fst_le (num den : ℕ) {e : ℤ} {k : ℕ} (he : -k ≤ e) : (scaled num den e).1 ≤ num * 2 ^ k := by
  cases e with
  | ofNat e => exact Nat.le_mul_of_pos_right num (by positivity)
  | negSucc e =>
    rw [scaled, Nat.shiftLeft_eq]
    exact Nat.mul_le_mul_left num (Nat.pow_le_pow_right Nat.two_pos (by omega))

theorem neg_le_grid (num : ℕ) : -53 ≤ grid num 1 := by
  have hlog : (Nat.log2 1 : ℤ) = 0 := by decide
  have hprec : (Format.double.precision : ℤ) = 53 := rfl
  unfold grid
  dsimp only
  split_ifs <;> omega

theorem ofNat_eq_finite {n : ℕ} (hn : n < 2 ^ 64) :
    ∃ m e, ofNat .double n = .finite false m e ∧ m < 2 ^ 117 ∧ e < 52 := by
  by_cases hzero : n = 0
  · exact ⟨0, _, by rw [hzero]; rfl, by norm_num, by decide⟩
  have hlog : n.log2 < 64 := (Nat.log2_lt hzero).2 hn
  have hgrid := grid_le n 1
  have hgrid' := neg_le_grid n
  have hmax : Format.double.maxExponent = 971 := by decide
  obtain ⟨e, he, m, hm, hround⟩ := round_eq 1 hzero
  refine ⟨m, e, by rw [ofNat, hround, if_neg (by omega)], ?_, by omega⟩
  obtain ⟨hd, -⟩ := scaled_eq n Nat.one_pos (grid n 1)
  have hscaled := scaled_fst_le n 1 (k := 53) hgrid'
  generalize (scaled n 1 (grid n 1)).1 = a at hm hscaled
  generalize (scaled n 1 (grid n 1)).2 = b at hm hd
  have hnear : nearestEven a b ≤ a := nearestEven_le hd (Nat.le_mul_of_pos_right a hd)
  have hle : m ≤ nearestEven a b := by
    have hpow : (2 : ℚ) ^ grid n 1 ≤ 2 ^ e := zpow_le_zpow_right₀ one_le_two (by omega)
    have hmul : (m : ℚ) * 2 ^ grid n 1 ≤ nearestEven a b * 2 ^ grid n 1 := by
      rw [← hm]
      gcongr
    exact_mod_cast le_of_mul_le_mul_right hmul (by positivity)
  calc m ≤ n * 2 ^ 53 := hle.trans (hnear.trans hscaled)
    _ < 2 ^ 64 * 2 ^ 53 := by gcongr
    _ = 2 ^ 117 := by norm_num

theorem isInfinite_mul_one {n : ℕ} (hn : n < 2 ^ 64) :
    (mul .double (ofNat .double n) (Numeral.power 0)).isInfinite = false := by
  have hone : Numeral.power 0 = .finite false (2 ^ 52) (-52) := by decide +kernel
  obtain ⟨m, e, hround, hm, he⟩ := ofNat_eq_finite hn
  rw [hround, hone, mul]
  obtain ⟨k, hk⟩ : ∃ k : ℕ, e + -52 = Int.negSucc k := ⟨(51 - e).toNat, by omega⟩
  rw [hk, fraction]
  apply isInfinite_round
  calc m * 2 ^ 52 < 2 ^ 117 * 2 ^ 52 := by gcongr
    _ < 2 ^ 200 := by norm_num

end Binary

namespace Numeral

theorem value_toDigits (n : ℕ) : value (Nat.toDigits 10 n) = n := by
  have hfold : value (Nat.toDigits 10 n) = Nat.ofDigitChars 10 (Nat.toDigits 10 n) 0 := by
    simp only [value, Nat.ofDigitChars, digitValue, Nat.mul_comm]
    rfl
  rw [hfold, Nat.ofDigitChars_ten_toDigits]

theorem head?_toDigits {n : ℕ} (hn : 0 < n) : (Nat.toDigits 10 n).head? ≠ some '0' := by
  induction n using Nat.strongRecOn with
  | ind n ih =>
    by_cases hsmall : n < 10
    · rw [Nat.toDigits_of_lt_base hsmall, List.head?_cons, ne_eq, Option.some.injEq, Nat.digitChar_eq_zero]
      omega
    · rw [Nat.toDigits_of_base_le (by decide) (by omega), List.head?_append_of_ne_nil _ Nat.toDigits_ne_nil]
      exact ih (n / 10) (by omega) (by omega)

theorem proper_ofNat (n : ℕ) : (ofNat n).Proper where
  whole := ⟨Nat.toDigits_ne_nil, fun _ ↦ Nat.isDigit_of_mem_toDigits (by decide) (by decide)⟩
  head := by
    intro hhead
    obtain rfl | hn := Nat.eq_zero_or_pos n
    · decide
    · exact absurd hhead (head?_toDigits hn)
  decimals := by simp [ofNat]
  exponent := by simp [ofNat]

theorem natural?_ofNat {n : ℕ} (hn : n < 2 ^ 64) : (ofNat n).natural? = some n := by
  have hlimit : n ≤ significandLimit := Nat.le_of_lt_succ hn
  simp [natural?, ofNat, value_toDigits, hlimit]

theorem accumulate_eq {n : ℕ} {cs : List Char}
    (h : cs.foldl (fun n c ↦ n * 10 + digitValue c) n ≤ significandLimit) :
    accumulate n cs = (cs.foldl (fun n c ↦ n * 10 + digitValue c) n, []) := by
  have hmono : ∀ (cs : List Char) (n : ℕ), n ≤ cs.foldl (fun n c ↦ n * 10 + digitValue c) n := by
    intro cs
    induction cs with
    | nil => exact fun n ↦ le_rfl
    | cons c cs ih => exact fun n ↦ le_trans (by omega) (ih (n * 10 + digitValue c))
  induction cs generalizing n with
  | nil => rfl
  | cons c cs ih =>
    rw [List.foldl_cons] at h ⊢
    rw [accumulate, if_neg (not_lt.2 ((hmono cs _).trans h)), ih h]

/-- What is read as an integer is read as a double too. -/
theorem isSome_toBinary? {n : Numeral} {v : ℕ} (h : n.natural? = some v) : n.toBinary?.isSome = true := by
  obtain ⟨negative, whole, decimals, exponent⟩ := n
  rw [natural?] at h
  dsimp only at h
  split_ifs at h with hshape hlimit
  simp only [Bool.or_eq_true, not_or, Bool.not_eq_true, Option.isSome_eq_false_iff, Option.isNone_iff_eq_none]
    at hshape
  obtain ⟨⟨rfl, rfl⟩, rfl⟩ := hshape
  have hinfinite := Binary.isInfinite_mul_one (n := value whole) (Nat.lt_succ_of_le hlimit)
  have hread : accumulate 0 whole = (value whole, []) := accumulate_eq hlimit
  simp only [toBinary?, hread]
  simpa [accumulate, scale] using hinfinite

end Numeral

end SoundLink
