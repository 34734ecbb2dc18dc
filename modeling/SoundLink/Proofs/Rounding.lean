import SoundLink.Binary
import Mathlib.Tactic

namespace SoundLink.Binary

def IsAtLeast (k : ℚ) : Binary → Prop
  | .infinite s => s = false
  | .finite s m e => s = false ∧ k ≤ m * 2 ^ e
  | .nan => False

def IsAtMost (k : ℚ) : Binary → Prop
  | .finite s m e => s = false ∧ m * 2 ^ e ≤ k
  | _ => False

theorem fraction_eq (m : ℕ) (e : ℤ) :
    0 < (fraction m e).2 ∧ ((fraction m e).1 : ℚ) = m * 2 ^ e * (fraction m e).2 := by
  cases e with
  | ofNat e =>
    refine ⟨Nat.one_pos, ?_⟩
    simp [fraction, Nat.shiftLeft_eq]
  | negSucc e =>
    refine ⟨by simp [fraction, Nat.shiftLeft_eq], ?_⟩
    have hpow : (2 : ℚ) ^ (e + 1) ≠ 0 := by positivity
    simp only [fraction, Nat.shiftLeft_eq, one_mul, zpow_negSucc]
    push_cast
    rw [mul_assoc, inv_mul_cancel₀ hpow, mul_one]

theorem scaled_eq {den : ℕ} (num : ℕ) (hden : 0 < den) (e : ℤ) :
    0 < (scaled num den e).2 ∧
      ((scaled num den e).1 : ℚ) * den * 2 ^ e = num * (scaled num den e).2 := by
  cases e with
  | ofNat e =>
    refine ⟨by simp [scaled, Nat.shiftLeft_eq, hden], ?_⟩
    simp only [scaled, Nat.shiftLeft_eq, Int.ofNat_eq_natCast, zpow_natCast]
    push_cast
    ring
  | negSucc e =>
    refine ⟨hden, ?_⟩
    have hpow : (2 : ℚ) ^ (e + 1) ≠ 0 := by positivity
    simp only [scaled, Nat.shiftLeft_eq, zpow_negSucc]
    push_cast
    field_simp

variable {k num den n d : ℕ}

theorem le_nearestEven (hd : 0 < d) (h : k * d ≤ n) : k ≤ nearestEven n d := by
  have hq : k ≤ n / d := (Nat.le_div_iff_mul_le hd).2 h
  unfold nearestEven
  dsimp only
  split_ifs
  · exact hq
  · omega
  · omega

theorem nearestEven_le (hd : 0 < d) (h : n ≤ k * d) : nearestEven n d ≤ k := by
  have hdiv := Nat.div_add_mod n d
  have hq : n / d ≤ k := Nat.div_le_of_le_mul (by rwa [Nat.mul_comm])
  have hfull : n / d = k → n % d = 0 := by
    intro hk
    rw [hk, Nat.mul_comm] at hdiv
    omega
  unfold nearestEven
  dsimp only
  split_ifs with hlow hhigh
  · exact hq
  · omega
  · have hmod := Nat.mod_lt (n / d) Nat.two_pos
    omega

theorem nearestUp_le (hd : 0 < d) (h : n ≤ k * d) : nearestUp n d ≤ k := by
  refine Nat.le_of_lt_succ ((Nat.div_lt_iff_lt_mul (by omega)).2 ?_)
  rw [Nat.succ_mul]
  nlinarith

/-- The exponent that a fraction is rounded at. -/
def grid (num den : ℕ) : ℤ :=
  let low := max Format.double.minExponent ((num.log2 : ℤ) - den.log2 - Format.double.precision)
  let (n, d) := scaled num den low
  if n / d < Nat.pow 2 Format.double.precision then low else low + 1

theorem grid_nonpos_or (hnum : num ≠ 0) (hden : 0 < den) :
    grid num den ≤ 0 ∨ (2 : ℚ) ^ (52 : ℤ) * den * 2 ^ grid num den ≤ num := by
  by_contra hnot
  obtain ⟨hpos, hsmall⟩ := not_or.1 hnot
  refine hsmall ?_
  unfold grid at hpos ⊢
  dsimp only at hpos ⊢
  generalize hlow : max Format.double.minExponent
    ((num.log2 : ℤ) - den.log2 - Format.double.precision) = low at hpos ⊢
  obtain ⟨hd, heq⟩ := scaled_eq num hden low
  generalize (scaled num den low).1 = n at heq hpos ⊢
  generalize (scaled num den low).2 = d at heq hd hpos ⊢
  have hmin : Format.double.minExponent = -1074 := by decide
  have hprec : (Format.double.precision : ℤ) = 53 := rfl
  have hdq : (0 : ℚ) < d := by exact_mod_cast hd
  have hdenq : (0 : ℚ) < den := by exact_mod_cast hden
  split_ifs at hpos ⊢ with hfit
  · have hlog : (num.log2 : ℤ) = low + 53 + den.log2 := by omega
    have hnum' : (2 : ℚ) ^ (num.log2 : ℤ) ≤ num := by
      exact_mod_cast Nat.log2_self_le hnum
    have hden' : (den : ℚ) < 2 ^ ((den.log2 : ℤ) + 1) := by
      exact_mod_cast Nat.lt_log2_self
    calc (2 : ℚ) ^ (52 : ℤ) * den * 2 ^ low
        ≤ 2 ^ (52 : ℤ) * 2 ^ ((den.log2 : ℤ) + 1) * 2 ^ low := by gcongr
      _ = 2 ^ (num.log2 : ℤ) := by
        rw [hlog, ← zpow_add₀ two_ne_zero, ← zpow_add₀ two_ne_zero]
        congr 1
        ring
      _ ≤ num := hnum'
  · have hq : 2 ^ 53 * d ≤ n := (Nat.le_div_iff_mul_le hd).1 (not_lt.1 hfit)
    have hq' : (2 : ℚ) ^ (53 : ℤ) * d ≤ n := by exact_mod_cast hq
    have hmul : (2 : ℚ) ^ (53 : ℤ) * d * (den * 2 ^ low) ≤ num * d := by
      rw [← heq, mul_assoc (n : ℚ)]
      gcongr
    refine le_of_mul_le_mul_right ?_ hdq
    calc (2 : ℚ) ^ (52 : ℤ) * den * 2 ^ (low + 1) * d
        = 2 ^ (53 : ℤ) * d * (den * 2 ^ low) := by
          rw [zpow_add_one₀ two_ne_zero]
          norm_num
          ring
      _ ≤ num * d := hmul

variable (den) in
/-- A positive fraction is rounded to a multiple of a power of two, unless it is too large. -/
theorem round_eq (hnum : num ≠ 0) : ∃ e : ℤ,
    (e = grid num den ∨ e = grid num den + 1) ∧
    ∃ m : ℕ, (m : ℚ) * 2 ^ e = nearestEven (scaled num den (grid num den)).1
      (scaled num den (grid num den)).2 * 2 ^ grid num den ∧
    round .double false num den =
      if Format.double.maxExponent < e then .infinite false else .finite false m e := by
  generalize hmantissa : nearestEven (scaled num den (grid num den)).1
    (scaled num den (grid num den)).2 = mantissa
  have hround : round .double false num den =
      let p := if mantissa = Nat.pow 2 Format.double.precision
        then (Format.double.hidden, grid num den + 1) else (mantissa, grid num den)
      if Format.double.maxExponent < p.2 then .infinite false else .finite false p.1 p.2 := by
    rw [← hmantissa]
    simp only [round, if_neg hnum]
    rfl
  rw [hround]
  by_cases hcarry : mantissa = Nat.pow 2 Format.double.precision
  · refine ⟨grid num den + 1, .inr rfl, Format.double.hidden, ?_, by rw [if_pos hcarry]⟩
    rw [hcarry, zpow_add_one₀ two_ne_zero]
    norm_num [Format.double, Format.hidden]
    ring
  · exact ⟨grid num den, .inl rfl, mantissa, rfl, by rw [if_neg hcarry]⟩

theorem round_isAtLeast (hden : 0 < den) (hk : k ≤ 2 ^ 53) (h : k * den ≤ num) :
    (round .double false num den).IsAtLeast k := by
  by_cases hnum : num = 0
  · obtain rfl : k = 0 := by
      rw [hnum] at h
      exact Nat.eq_zero_of_not_pos fun hpos ↦ absurd (Nat.mul_pos hpos hden) (by omega)
    simp [round, hnum, IsAtLeast]
  obtain ⟨e, -, m, hm, hround⟩ := round_eq den hnum
  obtain ⟨hd, heq⟩ := scaled_eq num hden (grid num den)
  have hfull := grid_nonpos_or hnum hden
  rw [hround]
  split_ifs
  · rfl
  refine ⟨rfl, ?_⟩
  rw [hm]
  generalize grid num den = g at heq hfull hd ⊢
  generalize (scaled num den g).1 = n at heq ⊢
  generalize (scaled num den g).2 = d at heq hd ⊢
  have hdenq : (0 : ℚ) < den := by exact_mod_cast hden
  have hdq : (0 : ℚ) < d := by exact_mod_cast hd
  have hpow : (0 : ℚ) < 2 ^ g := by positivity
  by_cases hg : g ≤ 0
  · obtain ⟨j, rfl⟩ : ∃ j : ℕ, g = -j := ⟨g.natAbs, by omega⟩
    have hle : k * 2 ^ j * d ≤ n := by
      have hq : (k : ℚ) * 2 ^ j * d * (den * 2 ^ (-j : ℤ)) ≤ n * (den * 2 ^ (-j : ℤ)) := by
        have hkq : (k : ℚ) * den ≤ num := by exact_mod_cast h
        calc (k : ℚ) * 2 ^ j * d * (den * 2 ^ (-j : ℤ)) = k * den * d := by
              rw [zpow_neg, zpow_natCast]
              field_simp
          _ ≤ num * d := by gcongr
          _ = n * (den * 2 ^ (-j : ℤ)) := by rw [← heq, mul_assoc]
      exact_mod_cast le_of_mul_le_mul_right hq (by positivity)
    have hnear : ((k * 2 ^ j : ℕ) : ℚ) ≤ nearestEven n d := by
      exact_mod_cast le_nearestEven hd hle
    calc (k : ℚ) = (k * 2 ^ j : ℕ) * 2 ^ (-j : ℤ) := by
          rw [zpow_neg, zpow_natCast]
          push_cast
          field_simp
      _ ≤ nearestEven n d * 2 ^ (-j : ℤ) := by gcongr
  · have hbig := hfull.resolve_left hg
    have hle : 2 ^ 52 * d ≤ n := by
      have hq : (2 : ℚ) ^ (52 : ℤ) * d * (den * 2 ^ g) ≤ n * (den * 2 ^ g) := by
        calc (2 : ℚ) ^ (52 : ℤ) * d * (den * 2 ^ g) = 2 ^ (52 : ℤ) * den * 2 ^ g * d := by ring
          _ ≤ num * d := by gcongr
          _ = n * (den * 2 ^ g) := by rw [← heq, mul_assoc]
      exact_mod_cast le_of_mul_le_mul_right hq (by positivity)
    have hnear : ((2 ^ 52 : ℕ) : ℚ) ≤ nearestEven n d := by exact_mod_cast le_nearestEven hd hle
    have htwo : (2 : ℚ) ^ (1 : ℤ) ≤ 2 ^ g := zpow_le_zpow_right₀ one_le_two (by omega)
    have hkq : (k : ℚ) ≤ 2 ^ 53 := by exact_mod_cast hk
    calc (k : ℚ) ≤ 2 ^ 53 := hkq
      _ = (2 ^ 52 : ℕ) * 2 ^ (1 : ℤ) := by norm_num
      _ ≤ nearestEven n d * 2 ^ g := by gcongr

theorem round_isAtMost (hden : 0 < den) (hk : k < 2 ^ 53) (h : num ≤ k * den) :
    (round .double false num den).IsAtMost k := by
  by_cases hnum : num = 0
  · simp [round, hnum, IsAtMost]
  obtain ⟨e, he, m, hm, hround⟩ := round_eq den hnum
  obtain ⟨hd, heq⟩ := scaled_eq num hden (grid num den)
  have hfull := grid_nonpos_or hnum hden
  have hmax : Format.double.maxExponent = 971 := by decide
  have hdenq : (0 : ℚ) < den := by exact_mod_cast hden
  have hq : (num : ℚ) ≤ k * den := by exact_mod_cast h
  have hkq : (k : ℚ) < 2 ^ 53 := by exact_mod_cast hk
  have hg : grid num den ≤ 0 := by
    by_contra hg
    have hbig := hfull.resolve_left hg
    have htwo : (2 : ℚ) ^ (1 : ℤ) ≤ 2 ^ grid num den := zpow_le_zpow_right₀ one_le_two (by omega)
    have hlt : (k : ℚ) * den < num := by
      calc (k : ℚ) * den < 2 ^ 53 * den := by gcongr
        _ = 2 ^ (52 : ℤ) * den * 2 ^ (1 : ℤ) := by
          norm_num
          ring
        _ ≤ 2 ^ (52 : ℤ) * den * 2 ^ grid num den := by gcongr
        _ ≤ num := hbig
    exact absurd hq (not_le.2 hlt)
  rw [hround, if_neg (by omega)]
  refine ⟨rfl, ?_⟩
  rw [hm]
  generalize grid num den = g at heq hg hd ⊢
  generalize (scaled num den g).1 = n at heq ⊢
  generalize (scaled num den g).2 = d at heq hd ⊢
  obtain ⟨j, rfl⟩ : ∃ j : ℕ, g = -j := ⟨g.natAbs, by omega⟩
  have hle : n ≤ k * 2 ^ j * d := by
    have hmul : (n : ℚ) * (den * 2 ^ (-j : ℤ)) ≤ k * 2 ^ j * d * (den * 2 ^ (-j : ℤ)) := by
      calc (n : ℚ) * (den * 2 ^ (-j : ℤ)) = num * d := by rw [← heq, mul_assoc]
        _ ≤ k * den * d := by gcongr
        _ = k * 2 ^ j * d * (den * 2 ^ (-j : ℤ)) := by
          rw [zpow_neg, zpow_natCast]
          field_simp
    exact_mod_cast le_of_mul_le_mul_right hmul (by positivity)
  have hnear : (nearestEven n d : ℚ) ≤ (k * 2 ^ j : ℕ) := by exact_mod_cast nearestEven_le hd hle
  calc (nearestEven n d : ℚ) * 2 ^ (-j : ℤ) ≤ (k * 2 ^ j : ℕ) * 2 ^ (-j : ℤ) := by gcongr
    _ = k := by
      rw [zpow_neg, zpow_natCast]
      push_cast
      field_simp

variable {s t : Bool} {m : ℕ} {e f : ℤ}

theorem units_mul_zpow {u : ℤ} (h : u ≤ e) (s : Bool) (m : ℕ) :
    (units u s m e : ℚ) * 2 ^ u = (if s then -(m : ℚ) else m) * 2 ^ e := by
  obtain ⟨j, rfl⟩ := Int.le.dest h
  have hshift : (m <<< (u + j - u).toNat : ℕ) = m * 2 ^ j := by
    rw [add_sub_cancel_left, Int.toNat_natCast, Nat.shiftLeft_eq]
  have hpow : (2 : ℚ) ^ (u + j) = 2 ^ j * 2 ^ u := by
    rw [zpow_add₀ two_ne_zero, zpow_natCast, mul_comm]
  rw [units, hshift, hpow]
  cases s
  · simp [mul_assoc]
  · simp [mul_assoc]

theorem lt_finite_iff : (finite s m e).lt (finite t n f) = true ↔
    (if s then -(m : ℚ) else m) * 2 ^ e < (if t then -(n : ℚ) else n) * 2 ^ f := by
  have hpow : (0 : ℚ) < 2 ^ min e f := by positivity
  rw [← units_mul_zpow (min_le_left e f), ← units_mul_zpow (min_le_right e f),
    mul_lt_mul_iff_left₀ hpow, Int.cast_lt, lt, decide_eq_true_eq]

theorem not_lt_of_isAtLeast {x y : Binary} {k : ℚ} (hx : x.IsAtLeast k) (hy : y.IsAtMost k) :
    x.lt y = false := by
  cases y with
  | nan => exact hy.elim
  | infinite t => exact hy.elim
  | finite t n f =>
    obtain ⟨rfl, hy⟩ := hy
    cases x with
    | nan => rfl
    | infinite s => exact hx
    | finite s m e =>
      obtain ⟨rfl, hx⟩ := hx
      rw [← Bool.not_eq_true, lt_finite_iff]
      simpa using hy.trans hx

theorem exists_finite {x y : Binary} (hpos : (zero .double).lt x = true) (hle : x.le y = true)
    (hy : y = finite false n f) :
    ∃ m e, x = finite false m e ∧ 0 < m ∧ (m : ℚ) * 2 ^ e ≤ n * 2 ^ f := by
  subst hy
  cases x with
  | nan => cases hpos
  | infinite s => cases s <;> simp [zero, le, lt] at hpos hle
  | finite s m e =>
    have hm : 0 < (if s then -(m : ℚ) else m) := by
      have hlt := lt_finite_iff.1 hpos
      simp only [Bool.false_eq_true, if_false, CharP.cast_eq_zero, zero_mul] at hlt
      exact pos_of_mul_pos_left hlt (by positivity)
    cases s with
    | true =>
      rw [if_pos rfl, Left.neg_pos_iff] at hm
      exact absurd hm (not_lt.2 (Nat.cast_nonneg m))
    | false =>
      simp only [Bool.false_eq_true, if_false, Nat.cast_pos] at hm
      refine ⟨m, e, rfl, hm, ?_⟩
      have hnot : ¬(finite false n f).lt (finite false m e) = true := by
        simpa [le] using hle
      rw [lt_finite_iff] at hnot
      simpa using hnot

theorem isAtLeast_zero_of_pos {x : Binary} (h : (zero .double).lt x = true) : x.IsAtLeast 0 := by
  cases x with
  | nan => cases h
  | infinite s => cases s <;> simp [zero, lt, IsAtLeast] at h ⊢
  | finite s m e =>
    rw [zero, lt_finite_iff] at h
    cases s with
    | true =>
      simp only [Bool.false_eq_true, if_false, CharP.cast_eq_zero, zero_mul, if_true] at h
      have hle : (-m : ℚ) * 2 ^ e ≤ 0 :=
        mul_nonpos_of_nonpos_of_nonneg (by simp) (by positivity)
      exact absurd h (not_lt.2 hle)
    | false => exact ⟨rfl, by positivity⟩

theorem IsAtLeast.mul {x : Binary} {j : ℚ} (hx : x.IsAtLeast j) (hn : 0 < n) (hk : k ≤ 2 ^ 53)
    (h : (k : ℚ) ≤ j * (n * 2 ^ f)) :
    (mul .double x (finite false n f)).IsAtLeast k := by
  cases x with
  | nan => exact hx.elim
  | infinite s =>
    obtain rfl : s = false := hx
    simp [Binary.mul, hn.ne', IsAtLeast]
  | finite s m e =>
    obtain ⟨rfl, hx⟩ := hx
    obtain ⟨hd, hfrac⟩ := fraction_eq (m * n) (e + f)
    refine round_isAtLeast hd hk ?_
    have hle : (k : ℚ) ≤ m * 2 ^ e * (n * 2 ^ f) := h.trans (by gcongr)
    have hmul : (k : ℚ) * (fraction (m * n) (e + f)).2 ≤ (fraction (m * n) (e + f)).1 := by
      rw [hfrac]
      push_cast
      rw [zpow_add₀ two_ne_zero]
      calc (k : ℚ) * (fraction (m * n) (e + f)).2
          ≤ m * 2 ^ e * (n * 2 ^ f) * (fraction (m * n) (e + f)).2 := by gcongr
        _ = m * n * (2 ^ e * 2 ^ f) * (fraction (m * n) (e + f)).2 := by ring
    exact_mod_cast hmul

theorem mul_isAtMost (hk : k < 2 ^ 53) (h : (m : ℚ) * 2 ^ e * (n * 2 ^ f) ≤ k) :
    (mul .double (finite false m e) (finite false n f)).IsAtMost k := by
  obtain ⟨hd, hfrac⟩ := fraction_eq (m * n) (e + f)
  refine round_isAtMost hd hk ?_
  have hmul : ((fraction (m * n) (e + f)).1 : ℚ) ≤ k * (fraction (m * n) (e + f)).2 := by
    rw [hfrac]
    push_cast
    rw [zpow_add₀ two_ne_zero]
    calc (m : ℚ) * n * (2 ^ e * 2 ^ f) * (fraction (m * n) (e + f)).2
        = m * 2 ^ e * (n * 2 ^ f) * (fraction (m * n) (e + f)).2 := by ring
      _ ≤ k * (fraction (m * n) (e + f)).2 := by gcongr
  exact_mod_cast hmul

theorem nearestInt32_le {x : Binary} (hx : x.IsAtMost k) (hk : k < 2 ^ 31) :
    x.nearestInt32.toInt ≤ k := by
  cases x with
  | nan => exact hx.elim
  | infinite t => exact hx.elim
  | finite t m e =>
    obtain ⟨rfl, hx⟩ := hx
    obtain ⟨hd, hfrac⟩ := fraction_eq m e
    have hle : (fraction m e).1 ≤ k * (fraction m e).2 := by
      have hmul : ((fraction m e).1 : ℚ) ≤ k * (fraction m e).2 := by
        rw [hfrac]
        gcongr
      exact_mod_cast hmul
    have hnear := nearestUp_le hd hle
    have hsmall : nearestUp (fraction m e).1 (fraction m e).2 < Nat.pow 2 31 :=
      hnear.trans_lt hk
    simp only [nearestInt32, saturate, Bool.false_eq_true, if_false, if_pos hsmall]
    rw [Int32.toInt_ofNat_of_lt hsmall]
    exact_mod_cast hnear

theorem nearestInt32_nonneg {x : Binary} {k : ℚ} (hx : x.IsAtLeast k) :
    0 ≤ x.nearestInt32.toInt := by
  cases x with
  | nan => exact hx.elim
  | infinite t =>
    obtain rfl : t = false := hx
    decide
  | finite t m e =>
    obtain ⟨rfl, -⟩ := hx
    simp only [nearestInt32, saturate, Bool.false_eq_true, if_false]
    split_ifs with hsmall
    · rw [Int32.toInt_ofNat_of_lt hsmall]
      exact Int.natCast_nonneg _
    · decide

end SoundLink.Binary
