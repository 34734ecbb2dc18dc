import SoundLink.Frame.Detector
import SoundLink.Proofs.FixedPoint

namespace SoundLink.MatchedFilter

/-- The sum of the products of two lists in units of full scale, each product rounded down. -/
def correlation : List Sample → List Sample → ℤ
  | a :: as, b :: bs => a.toInt * b.toInt / 2 ^ 31 + correlation as bs
  | _, _ => 0

@[simp] theorem correlation_nil_left (bs : List Sample) : correlation [] bs = 0 := rfl

@[simp] theorem correlation_nil_right (as : List Sample) : correlation as [] = 0 := by
  cases as <;> rfl

@[simp] theorem correlation_cons (a b : Sample) (as bs : List Sample) :
    correlation (a :: as) (b :: bs) = a.toInt * b.toInt / 2 ^ 31 + correlation as bs := rfl

theorem abs_product_le {A : ℤ} (a b : Sample) (hb : |b.toInt| ≤ A) :
    |a.toInt * b.toInt / 2 ^ 31| ≤ A := by
  have ha : |a.toInt| ≤ 2 ^ 31 := abs_le.2 ⟨a.le_toInt, a.toInt_lt.le⟩
  have h : |a.toInt * b.toInt| ≤ 2 ^ 31 * A := by
    rw [abs_mul]
    exact mul_le_mul ha hb (abs_nonneg _) (by norm_num)
  rw [abs_le] at h ⊢
  omega

theorem abs_correlation_le {A : ℤ} (as bs : List Sample) (hb : ∀ b ∈ bs, |b.toInt| ≤ A)
    (hA : 0 ≤ A) :
    |correlation as bs| ≤ bs.length * A := by
  induction as generalizing bs with
  | nil => simpa using by positivity
  | cons a as ih =>
    cases bs with
    | nil => simp
    | cons b bs =>
      have h₁ := abs_product_le a b (hb b List.mem_cons_self)
      have h₂ := ih bs (fun c hc ↦ hb c (List.mem_cons_of_mem _ hc))
      calc |a.toInt * b.toInt / 2 ^ 31 + correlation as bs|
          ≤ |a.toInt * b.toInt / 2 ^ 31| + |correlation as bs| := abs_add_le _ _
        _ ≤ A + bs.length * A := add_le_add h₁ h₂
        _ = (b :: bs).length * A := by rw [List.length_cons]; push_cast; ring

theorem toInt_correlate {A : ℤ} (as bs : List Sample) (s : Int64) (hb : ∀ b ∈ bs, |b.toInt| ≤ A)
    (hA : 0 ≤ A) (hs : |s.toInt| + bs.length * A < 2 ^ 63) :
    (correlate s as bs).toInt = s.toInt + correlation as bs := by
  induction as generalizing bs s with
  | nil => simp [correlate]
  | cons a as ih =>
    cases bs with
    | nil => simp [correlate]
    | cons b bs =>
      have h := abs_product_le a b (hb b List.mem_cons_self)
      have hlen : 0 ≤ (bs.length : ℤ) * A := by positivity
      simp only [List.length_cons] at hs
      push_cast at hs
      have hsum := abs_add_le s.toInt (a.toInt * b.toInt / 2 ^ 31)
      have hbound : |s.toInt + a.toInt * b.toInt / 2 ^ 31| < 2 ^ 63 := by linarith
      rw [abs_lt] at hbound
      have hadd : (s + (a.toInt64 * b.toInt64) >>> 31).toInt =
          s.toInt + a.toInt * b.toInt / 2 ^ 31 := by
        rw [Int64.toInt_add, toInt_mul_shiftRight _ _ _ 31 rfl]
        exact bmod_64 hbound.1.le hbound.2
      have hrest := ih bs _ (fun c hc ↦ hb c (List.mem_cons_of_mem _ hc)) (by rw [hadd]; linarith)
      rw [correlate, hrest, hadd, correlation_cons, add_assoc]

/-- Taps of which no more than 2^46 full-scale units can add up never wrap. -/
theorem units_power {A : ℤ} (f : MatchedFilter) (newest : List Sample)
    (hb : ∀ b ∈ f.taps, |b.toInt| ≤ A) (hA : 0 ≤ A) (hl : f.taps.length * A < 2 ^ 46) :
    (f.power newest).units = correlation newest f.taps / 2 ^ 15 := by
  have h := abs_correlation_le newest f.taps hb hA
  have hc := toInt_correlate newest f.taps 0 hb hA (by rw [Int64.toInt_zero, abs_zero]; linarith)
  rw [Int64.toInt_zero, zero_add] at hc
  rw [abs_le] at h
  change (correlate 0 newest f.taps >>> 15).toInt32.toInt = _
  rw [Int64.toInt_toInt32, toInt_shiftRight_64 _ _ 15 rfl, hc]
  exact bmod_32 (by omega) (by omega)

theorem correlation_replicate_zero (n : ℕ) (bs : List Sample) :
    correlation (List.replicate n 0) bs = 0 := by
  induction n generalizing bs with
  | zero => rfl
  | succ n ih => cases bs <;> simp [List.replicate_succ, ih]

theorem correlation_comm (as bs : List Sample) : correlation as bs = correlation bs as := by
  induction as generalizing bs with
  | nil => simp
  | cons a as ih => cases bs <;> simp [ih, mul_comm]

theorem correlation_append_left (as as' bs : List Sample) (h : bs.length ≤ as.length) :
    correlation (as ++ as') bs = correlation as bs := by
  induction as generalizing bs with
  | nil => simp [List.eq_nil_of_length_eq_zero (Nat.le_zero.1 h)]
  | cons a as ih =>
    cases bs with
    | nil => simp
    | cons b bs => simp [ih bs (by simpa using h)]

theorem correlation_append_replicate_zero (n : ℕ) (as bs : List Sample) :
    correlation (as ++ List.replicate n 0) bs = correlation as bs := by
  induction as generalizing bs with
  | nil => exact correlation_replicate_zero n bs
  | cons a as ih => cases bs <;> simp [ih]

theorem correlation_le {m A : ℤ} (as bs : List Sample) (ha : ∀ a ∈ as, |a.toInt| ≤ m)
    (hb : ∀ b ∈ bs, |b.toInt| ≤ A) (hA : 0 ≤ A) : correlation as bs ≤ as.length * (m * A / 2 ^ 31) := by
  induction as generalizing bs with
  | nil => simp
  | cons a as ih =>
    have ha' := ha a List.mem_cons_self
    have hm : 0 ≤ m := (abs_nonneg _).trans ha'
    have hq : 0 ≤ m * A / 2 ^ 31 := Int.ediv_nonneg (mul_nonneg hm hA) (by norm_num)
    cases bs with
    | nil => simpa using by positivity
    | cons b bs =>
      have hb' := hb b List.mem_cons_self
      have hab : a.toInt * b.toInt ≤ m * A :=
        (le_abs_self _).trans (abs_mul a.toInt b.toInt ▸ mul_le_mul ha' hb' (abs_nonneg _) hm)
      have h₁ := Int.ediv_le_ediv (show (0 : ℤ) < 2 ^ 31 by norm_num) hab
      have h₂ := ih bs (fun c hc ↦ ha c (List.mem_cons_of_mem _ hc))
        (fun c hc ↦ hb c (List.mem_cons_of_mem _ hc))
      calc a.toInt * b.toInt / 2 ^ 31 + correlation as bs
          ≤ m * A / 2 ^ 31 + as.length * (m * A / 2 ^ 31) := add_le_add h₁ h₂
        _ = (a :: as).length * (m * A / 2 ^ 31) := by rw [List.length_cons]; push_cast; ring

theorem correlation_self {A : ℤ} (as : List Sample) (ha : ∀ a ∈ as, |a.toInt| = A) :
    correlation as as = as.length * (A * A / 2 ^ 31) := by
  induction as with
  | nil => simp
  | cons a as ih =>
    have h : a.toInt * a.toInt = A * A := by rw [← ha a List.mem_cons_self, abs_mul_abs_self]
    simp only [correlation_cons, h, ih fun c hc ↦ ha c (List.mem_cons_of_mem _ hc),
      List.length_cons]
    push_cast
    ring

end SoundLink.MatchedFilter
