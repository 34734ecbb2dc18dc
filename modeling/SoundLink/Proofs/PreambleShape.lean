import SoundLink.Sample
import SoundLink.Proofs.Correlation

namespace SoundLink.Preamble

open MatchedFilter

theorem mem_widths {n w : ℕ} (h : w ∈ widths n) : 0 < w := by
  simp only [widths, List.mem_append, List.mem_reverse, List.mem_map] at h
  obtain ⟨i, -, rfl⟩ | ⟨i, -, rfl⟩ := h <;> exact Nat.succ_pos i

theorem length_widths (n : ℕ) : (widths n).length = 2 * n := by
  simp [widths]
  omega

theorem sum_climb (n : ℕ) : 2 * ((List.range n).map (· + 1)).sum = n * (n + 1) := by
  induction n with
  | zero => rfl
  | succ n ih =>
    rw [List.range_succ, List.map_append, List.sum_append, Nat.mul_add, ih]
    simp
    ring

theorem sum_widths (n : ℕ) : (widths n).sum = n * (n + 1) := by
  rw [widths, List.sum_append, List.sum_reverse, ← two_mul, sum_climb]

theorem reverse_widths (n : ℕ) : (widths n).reverse = widths n := by
  simp [widths]

theorem length_flatMap_pulse (A : Sample) (ws : List ℕ) :
    (ws.flatMap (pulse A)).length = 2 * ws.sum := by
  induction ws with
  | nil => rfl
  | cons w ws ih =>
    rw [List.flatMap_cons, List.length_append, ih, List.sum_cons, pulse]
    simp
    omega

theorem length_samples (n : ℕ) (A : Sample) : (samples n A).length = length n := by
  rw [samples, length_flatMap_pulse, sum_widths, length, Nat.mul_assoc]

theorem reverse_samples (n : ℕ) (A : Sample) : (samples n A).reverse = samples n (-A) := by
  have h : List.reverse ∘ pulse A = pulse (-A) := by
    funext w
    simp [pulse]
  rw [samples, List.reverse_flatMap, h, reverse_widths, samples]

theorem eq_or_eq_of_mem_samples {n : ℕ} {A s : Sample} (h : s ∈ samples n A) : s = A ∨ s = -A := by
  obtain ⟨w, -, hs⟩ := List.mem_flatMap.1 h
  obtain hs | hs := List.mem_append.1 hs
  · exact .inl (List.eq_of_mem_replicate hs)
  · exact .inr (List.eq_of_mem_replicate hs)

theorem toInt_neg_of_nonneg {A : Sample} (hA : 0 ≤ A.toInt) : (-A).toInt = -A.toInt := by
  have h := A.toInt_lt
  rw [Int32.toInt_neg, bmod_32 (by omega) (by omega)]

theorem toInt_neg_of_pos {A : Sample} (hA : 0 < A.toInt) : (-A).toInt = -A.toInt :=
  toInt_neg_of_nonneg hA.le

theorem abs_of_mem_samples_of_nonneg {n : ℕ} {A s : Sample} (hA : 0 ≤ A.toInt)
    (h : s ∈ samples n A) : |s.toInt| = A.toInt := by
  obtain rfl | rfl := eq_or_eq_of_mem_samples h
  · exact abs_of_nonneg hA
  · rw [toInt_neg_of_nonneg hA, abs_neg, abs_of_nonneg hA]

theorem abs_of_mem_samples {n : ℕ} {A s : Sample} (hA : 0 < A.toInt) (h : s ∈ samples n A) :
    |s.toInt| = A.toInt := abs_of_mem_samples_of_nonneg hA.le h

def adjacent : List Sample → ℤ
  | a :: b :: rest => a.toInt * b.toInt / 2 ^ 31 + adjacent (b :: rest)
  | _ => 0

theorem correlation_tail (xs : List Sample) : correlation xs.tail xs = adjacent xs := by
  induction xs with
  | nil => rfl
  | cons a xs ih =>
    cases xs with
    | nil => rfl
    | cons b xs => rw [adjacent, ← ih, mul_comm]; rfl

variable {xs : List Sample} {a : ℤ} {n : ℕ} {A : Sample}

/-- What is between two neighbours, summed over a list. -/
def neighbours (f : Sample → Sample → ℤ) (xs : List Sample) : ℤ := (List.zipWith f xs xs.tail).sum

section

variable (f : Sample → Sample → ℤ)

theorem neighbours_cons_cons (a b : Sample) (xs : List Sample) :
    neighbours f (a :: b :: xs) = f a b + neighbours f (b :: xs) := by
  simp [neighbours]

theorem eq_neighbours {F : List Sample → ℤ} (hnil : F [] = 0) (hone : ∀ a, F [a] = 0)
    (hcons : ∀ a b xs, F (a :: b :: xs) = f a b + F (b :: xs)) (xs : List Sample) :
    F xs = neighbours f xs := by
  induction xs with
  | nil => exact hnil
  | cons a xs ih =>
    cases xs with
    | nil => exact hone a
    | cons b xs => rw [hcons, ih, neighbours_cons_cons]

theorem neighbours_replicate_append (a b : Sample) (w : ℕ) (rest : List Sample) :
    neighbours f (List.replicate (w + 1) a ++ b :: rest) =
      w * f a a + f a b + neighbours f (b :: rest) := by
  induction w with
  | zero => simp [neighbours_cons_cons]
  | succ w ih =>
    rw [List.replicate_succ, List.cons_append, List.replicate_succ, List.cons_append,
      neighbours_cons_cons, ← List.cons_append, ← List.replicate_succ, ih]
    push_cast
    ring

theorem neighbours_replicate (a : Sample) (w : ℕ) :
    neighbours f (List.replicate (w + 1) a) = w * f a a := by
  induction w with
  | zero => simp [neighbours]
  | succ w ih =>
    rw [List.replicate_succ, List.replicate_succ, neighbours_cons_cons, ← List.replicate_succ, ih]
    push_cast
    ring

theorem neighbours_flatMap_pulse (hself : f (-A) (-A) = f A A) (hback : f (-A) A = f A (-A))
    (ws : List ℕ) (hw : ∀ w ∈ ws, 0 < w) (hne : ws ≠ []) :
    neighbours f (ws.flatMap (pulse A)) =
      (2 * ws.sum - 2 * ws.length) * f A A + (2 * ws.length - 1) * f A (-A) := by
  induction ws with
  | nil => exact absurd rfl hne
  | cons w ws ih =>
    obtain ⟨v, rfl⟩ := Nat.exists_eq_succ_of_ne_zero (hw w List.mem_cons_self).ne'
    -- a pulse ends in its half of the other sign, and the next one begins with its first half
    have hsplit : (v.succ :: ws).flatMap (pulse A) =
        List.replicate (v + 1) A ++ -A :: (List.replicate v (-A) ++ ws.flatMap (pulse A)) := by
      simp [pulse, List.replicate_succ]
    rw [hsplit, neighbours_replicate_append, ← List.cons_append, ← List.replicate_succ]
    cases ws with
    | nil =>
      rw [List.flatMap_nil, List.append_nil, neighbours_replicate, hself]
      simp
      ring
    | cons u us =>
      obtain ⟨t, rfl⟩ := Nat.exists_eq_succ_of_ne_zero (hw u (by simp)).ne'
      have hhead : (t.succ :: us).flatMap (pulse A) =
          A :: (List.replicate t A ++ List.replicate (t + 1) (-A) ++ us.flatMap (pulse A)) := by
        simp [pulse, List.replicate_succ]
      have hrest := ih (fun w hw' ↦ hw w (List.mem_cons_of_mem _ hw')) (by simp)
      rw [hhead] at hrest ⊢
      rw [neighbours_replicate_append, hrest, hself, hback]
      simp only [List.sum_cons, List.length_cons]
      push_cast
      ring

theorem neighbours_samples (hself : f (-A) (-A) = f A A) (hback : f (-A) A = f A (-A)) (hn : 0 < n) :
    neighbours f (samples n A) = (length n - 4 * n) * f A A + (4 * n - 1) * f A (-A) := by
  have hne : widths n ≠ [] := by
    rw [← List.length_pos_iff, length_widths]
    omega
  have hpulses := neighbours_flatMap_pulse f hself hback _ (fun w hw ↦ mem_widths hw) hne
  rw [samples, hpulses, length_widths, sum_widths, length]
  push_cast
  ring

end

theorem adjacent_eq_neighbours (xs : List Sample) :
    adjacent xs = neighbours (fun a b ↦ a.toInt * b.toInt / 2 ^ 31) xs :=
  eq_neighbours _ rfl (fun _ ↦ rfl) (fun _ _ _ ↦ rfl) xs

def signChanges (xs : List Sample) : ℕ :=
  (xs.zip xs.tail).countP fun pair ↦ pair.1.toInt * pair.2.toInt < 0

theorem signChanges_eq_neighbours (xs : List Sample) :
    signChanges xs = neighbours (fun a b ↦ if a.toInt * b.toInt < 0 then 1 else 0) xs := by
  refine eq_neighbours _ (F := fun xs ↦ (signChanges xs : ℤ)) rfl (fun _ ↦ rfl) (fun a b xs ↦ ?_) xs
  simp only [signChanges, List.tail_cons, List.zip_cons_cons, List.countP_cons, decide_eq_true_iff]
  push_cast
  ring

theorem correlation_tail_taps {n : ℕ} (hn : 0 < n) {A : Sample} (hA : 0 < A.toInt) :
    correlation (samples n A).reverse.tail (samples n A).reverse =
      (length n - 4 * n) * (A.toInt * A.toInt / 2 ^ 31) +
        (4 * n - 1) * (A.toInt * -A.toInt / 2 ^ 31) := by
  have hneg := toInt_neg_of_pos hA
  have hback : (-(-A)).toInt = A.toInt := by rw [Int32.neg_neg]
  have hpulses := neighbours_samples (A := -A) (fun a b ↦ a.toInt * b.toInt / 2 ^ 31)
    (by rw [hback, hneg, neg_mul_neg]) (by rw [mul_comm]) hn
  rw [reverse_samples, correlation_tail, adjacent_eq_neighbours, hpulses, hback, hneg, neg_mul_neg,
    mul_comm (-A.toInt)]

/-- The sample at a place, and silence on both sides. -/
def levelAt (xs : List Sample) (i : ℤ) : ℤ := if 0 ≤ i then (xs.getD i.toNat 0).toInt else 0

/-- How well samples match themselves when they are shifted by `d`. -/
def autocorrelation (xs : List Sample) (d : ℤ) : ℤ :=
  ∑ i ∈ Finset.range xs.length, levelAt xs i * levelAt xs (i + d)

theorem levelAt_natCast (xs : List Sample) (i : ℕ) : levelAt xs i = (xs.getD i 0).toInt := by
  rw [levelAt, if_pos (Int.natCast_nonneg i), Int.toNat_natCast]

theorem levelAt_of_lt {i : ℕ} (h : i < xs.length) : levelAt xs i = xs[i].toInt := by
  rw [levelAt_natCast, List.getD_eq_getElem?_getD, List.getElem?_eq_getElem h, Option.getD_some]

theorem levelAt_of_le {i : ℤ} (h : xs.length ≤ i) : levelAt xs i = 0 := by
  obtain ⟨k, rfl⟩ := Int.eq_ofNat_of_zero_le ((Int.natCast_nonneg _).trans h)
  rw [levelAt_natCast, List.getD_eq_getElem?_getD, List.getElem?_eq_none (Int.ofNat_le.1 h)]
  rfl

theorem levelAt_of_neg {i : ℤ} (h : i < 0) : levelAt xs i = 0 := if_neg h.not_ge

theorem abs_levelAt_le (h : ∀ s ∈ xs, |s.toInt| ≤ a) (ha : 0 ≤ a) (i : ℤ) : |levelAt xs i| ≤ a := by
  obtain hneg | hnonneg := lt_or_ge i 0
  · rwa [levelAt_of_neg hneg, abs_zero]
  · obtain ⟨k, rfl⟩ := Int.eq_ofNat_of_zero_le hnonneg
    obtain hlt | hle := lt_or_ge k xs.length
    · rw [levelAt_of_lt hlt]
      exact h _ (List.getElem_mem hlt)
    · rwa [levelAt_of_le (Int.ofNat_le.2 hle), abs_zero]

theorem autocorrelation_eq_overlap (xs : List Sample) (d : ℤ) :
    autocorrelation xs d =
      ∑ i ∈ Finset.Ico (-d).toNat (xs.length - d.toNat), levelAt xs i * levelAt xs (i + d) := by
  refine (Finset.sum_subset (fun i hi ↦ ?_) fun i hi hout ↦ ?_).symm
  · rw [Finset.mem_Ico] at hi
    rw [Finset.mem_range]
    omega
  · rw [Finset.mem_range] at hi
    rw [Finset.mem_Ico] at hout
    have hzero : levelAt xs (i + d) = 0 := by
      by_cases hneg : (i : ℤ) + d < 0
      · exact levelAt_of_neg hneg
      · exact levelAt_of_le (by omega)
    rw [hzero, mul_zero]

theorem autocorrelation_le (h : ∀ s ∈ xs, |s.toInt| ≤ a) (ha : 0 ≤ a) (d : ℤ) :
    autocorrelation xs d ≤ a ^ 2 * max (xs.length - |d|) 0 := by
  have hterm : ∀ i ∈ Finset.Ico (-d).toNat (xs.length - d.toNat),
      levelAt xs i * levelAt xs (i + d) ≤ a ^ 2 := by
    intro i _
    calc levelAt xs i * levelAt xs (i + d)
        ≤ |levelAt xs i| * |levelAt xs (i + d)| := (le_abs_self _).trans (abs_mul _ _).le
      _ ≤ a * a := mul_le_mul (abs_levelAt_le h ha _) (abs_levelAt_le h ha _) (abs_nonneg _) ha
      _ = a ^ 2 := (sq a).symm
  have hcard : ((Finset.Ico (-d).toNat (xs.length - d.toNat)).card : ℤ) = max (xs.length - |d|) 0 := by
    rw [Nat.card_Ico, Int.abs_eq_natAbs]
    omega
  have hsum := Finset.sum_le_card_nsmul _ _ _ hterm
  rwa [← autocorrelation_eq_overlap, nsmul_eq_mul, hcard, mul_comm] at hsum

theorem autocorrelation_zero (h : ∀ s ∈ xs, |s.toInt| = a) :
    autocorrelation xs 0 = a ^ 2 * xs.length := by
  have hterm : ∀ i ∈ Finset.range xs.length, levelAt xs i * levelAt xs (i + 0) = a ^ 2 := by
    intro i hi
    rw [add_zero, levelAt_of_lt (Finset.mem_range.1 hi), ← abs_mul_abs_self, h _ (List.getElem_mem _), sq]
  rw [autocorrelation, Finset.sum_congr rfl hterm, Finset.sum_const, Finset.card_range, nsmul_eq_mul,
    mul_comm]

theorem levelAt_cons (s : Sample) (xs : List Sample) {i : ℤ} (h : 0 ≤ i) :
    levelAt (s :: xs) (i + 1) = levelAt xs i := by
  obtain ⟨k, rfl⟩ := Int.eq_ofNat_of_zero_le h
  rw [← Nat.cast_succ, levelAt_natCast, levelAt_natCast, List.getD_cons_succ]

theorem autocorrelation_cons_one (s : Sample) (xs : List Sample) :
    autocorrelation (s :: xs) 1 = s.toInt * levelAt xs 0 + autocorrelation xs 1 := by
  have hterm : ∀ i : ℕ, levelAt (s :: xs) (i + 1 : ℕ) * levelAt (s :: xs) ((i + 1 : ℕ) + 1) =
      levelAt xs i * levelAt xs (i + 1) := by
    intro i
    rw [levelAt_cons s xs (Int.natCast_nonneg _), Nat.cast_succ, levelAt_cons s xs (Int.natCast_nonneg _)]
  have hfirst : levelAt (s :: xs) ((0 : ℕ) + 1) = levelAt xs 0 := levelAt_cons s xs le_rfl
  have hs : levelAt (s :: xs) (0 : ℕ) = s.toInt := rfl
  rw [autocorrelation, List.length_cons, Finset.sum_range_succ', Finset.sum_congr rfl fun i _ ↦ hterm i,
    hfirst, hs, add_comm, autocorrelation]

theorem autocorrelation_one (xs : List Sample) :
    autocorrelation xs 1 = neighbours (fun a b ↦ a.toInt * b.toInt) xs := by
  refine eq_neighbours _ (F := fun xs ↦ autocorrelation xs 1) rfl (fun a ↦ ?_) (fun a b xs ↦ ?_) xs
  · exact (autocorrelation_cons_one a []).trans (by simp [levelAt, autocorrelation])
  · exact autocorrelation_cons_one a (b :: xs)

theorem sum_flatMap_pulse (hneg : (-A).toInt = -A.toInt) (ws : List ℕ) :
    ((ws.flatMap (pulse A)).map Int32.toInt).sum = 0 := by
  induction ws with
  | nil => rfl
  | cons w ws ih =>
    rw [List.flatMap_cons, List.map_append, List.sum_append, ih]
    simp [pulse, hneg]

theorem samples_neg (n : ℕ) (A : Sample) : samples n (-A) = (samples n A).map Neg.neg := by
  have h : pulse (-A) = List.map Neg.neg ∘ pulse A := by
    funext w
    simp [pulse]
  rw [samples, h, samples, List.map_flatMap]
  rfl

theorem toInt_neg_of_mem_samples {s : Sample} (hA : 0 ≤ A.toInt) (h : s ∈ samples n A) :
    (-s).toInt = -s.toInt := by
  obtain rfl | rfl := eq_or_eq_of_mem_samples h
  · exact toInt_neg_of_nonneg hA
  · rw [Int32.neg_neg, toInt_neg_of_nonneg hA, neg_neg]

theorem getElem_samples_rev (hA : 0 ≤ A.toInt) {i : ℕ} (hi : i < (samples n A).length) :
    ((samples n A)[(samples n A).length - 1 - i]).toInt = -((samples n A)[i]).toInt := by
  have hreverse : (samples n A).reverse = (samples n A).map Neg.neg := by
    rw [reverse_samples, samples_neg]
  have hat : (samples n A)[(samples n A).length - 1 - i] = -(samples n A)[i] := by
    rw [← List.getElem_reverse (by rwa [List.length_reverse]), List.getElem_of_eq hreverse,
      List.getElem_map]
  rw [hat, toInt_neg_of_mem_samples hA (List.getElem_mem hi)]

theorem signChanges_samples (hn : 0 < n) (hA : 0 < A.toInt) :
    (signChanges (samples n A) : ℤ) = 4 * n - 1 := by
  have hneg := toInt_neg_of_pos hA
  have hsame : ¬A.toInt * A.toInt < 0 := (mul_self_nonneg _).not_gt
  have hother : A.toInt * -A.toInt < 0 := mul_neg_of_pos_of_neg hA (neg_lt_zero.2 hA)
  rw [signChanges_eq_neighbours, neighbours_samples _ ?_ ?_ hn]
  · simp only [hneg, if_neg hsame, if_pos hother]
    ring
  · simp only [hneg, neg_mul_neg]
  · simp only [hneg, mul_comm]

theorem autocorrelation_samples_one (hn : 0 < n) (hA : 0 < A.toInt) :
    autocorrelation (samples n A) 1 = A.toInt ^ 2 * (2 * n ^ 2 - 6 * n + 1) := by
  have hneg := toInt_neg_of_pos hA
  rw [autocorrelation_one, neighbours_samples _ ?_ ?_ hn]
  · rw [hneg, length]
    push_cast
    ring
  · rw [hneg, neg_mul_neg]
  · rw [mul_comm]

/-- A preamble has as many samples as it says, adds up to nothing, is its own mirror image with the sign
changed, and changes its sign within each pulse and between two. Shifted, it matches itself no better than
by the samples that still lie over one another, of which there are none past its length; so it does so best
where it is. -/
theorem shape_samples (hn : 0 < n) (hA : 0 < A) :
    (samples n A).length = length n ∧ ((samples n A).map Int32.toInt).sum = 0 ∧
      (∀ i, (hi : i < (samples n A).length) →
        ((samples n A)[(samples n A).length - 1 - i]).toInt = -((samples n A)[i]).toInt) ∧
      signChanges (samples n A) = 4 * n - 1 ∧
      autocorrelation (samples n A) 1 = A.toInt ^ 2 * (2 * n ^ 2 - 6 * n + 1) ∧
      autocorrelation (samples n A) 0 = A.toInt ^ 2 * length n ∧
      ∀ d ≠ 0, autocorrelation (samples n A) d ≤ A.toInt ^ 2 * max (length n - |d|) 0 ∧
        autocorrelation (samples n A) d < A.toInt ^ 2 * length n := by
  have hpos : 0 < A.toInt := Int32.lt_iff_toInt_lt.1 hA
  have hlevel : ∀ s ∈ samples n A, |s.toInt| = A.toInt := fun s hs ↦ abs_of_mem_samples hpos hs
  have hchanges := signChanges_samples hn hpos
  refine ⟨length_samples n A, sum_flatMap_pulse (toInt_neg_of_pos hpos) _,
    fun i hi ↦ getElem_samples_rev hpos.le hi, by omega, autocorrelation_samples_one hn hpos, ?_, ?_⟩
  · rw [autocorrelation_zero hlevel, length_samples]
  · intro d hd
    have hle := autocorrelation_le (fun s hs ↦ (hlevel s hs).le) hpos.le d
    have hlength : (0 : ℤ) < length n := by
      rw [length]
      positivity
    have hoverlap : max (length n - |d|) 0 < length n :=
      max_lt (sub_lt_self _ (abs_pos.2 hd)) hlength
    rw [length_samples] at hle
    exact ⟨hle, hle.trans_lt (mul_lt_mul_of_pos_left hoverlap (by positivity))⟩

theorem shape_samples_loudest :
    let p := samples 4 2147483647
    (p.length = 40 ∧ signChanges p = 15 ∧ autocorrelation p 1 = 2147483647 ^ 2 * 9) ∧
      autocorrelation p (-3) ≤ 2147483647 ^ 2 * 37 ∧ autocorrelation p 50 ≤ 0 := by
  obtain ⟨hlength, -, -, hchanges, hone, -, hshift⟩ :=
    shape_samples (n := 4) (A := 2147483647) (by decide) (by decide)
  exact ⟨⟨hlength, hchanges, hone⟩, (hshift (-3) (by decide)).1, (hshift 50 (by decide)).1⟩

/-- Past its length a preamble has no sample over another: it matches itself by 0 there, where `length n - |d|`
is below 0. -/
theorem not_autocorrelation_le_past_length :
    ¬autocorrelation (samples 1 1) 5 ≤ Int32.toInt 1 ^ 2 * (length 1 - |5|) := by
  decide

end SoundLink.Preamble
