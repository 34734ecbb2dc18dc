import SoundLink.Crc
import Mathlib.Tactic

namespace SoundLink

variable {α : Type} {n : ℕ} {xs part : List α}

theorem chunks_nil (n : ℕ) : chunks n ([] : List α) = [] := by
  rw [chunks, dif_pos (.inr rfl)]

theorem chunks_of_ne_nil (hn : 0 < n) (hxs : xs ≠ []) :
    chunks n xs = xs.take n :: chunks n (xs.drop n) := by
  rw [chunks, dif_neg (not_or.2 ⟨hn.ne', hxs⟩)]

theorem chunks_ne_nil (hn : 0 < n) (hxs : xs ≠ []) : chunks n xs ≠ [] := by
  rw [chunks_of_ne_nil hn hxs]
  exact List.cons_ne_nil _ _

theorem flatten_chunks (hn : 0 < n) (xs : List α) : (chunks n xs).flatten = xs := by
  fun_induction chunks n xs with
  | case1 xs h => simp [h.resolve_left hn.ne']
  | case2 xs h ih => rw [List.flatten_cons, ih, List.take_append_drop]

theorem mem_chunks (h : part ∈ chunks n xs) : part ≠ [] ∧ part.length ≤ n := by
  fun_induction chunks n xs with
  | case1 xs _ => cases h
  | case2 xs hxs ih =>
    obtain rfl | h := List.mem_cons.1 h
    · obtain ⟨hn, hne⟩ := not_or.1 hxs
      exact ⟨by simpa using ⟨hn, hne⟩, by simp⟩
    · exact ih h

theorem length_chunks (hn : 0 < n) (xs : List α) :
    (chunks n xs).length = chunkCount n xs.length := by
  fun_induction chunks n xs with
  | case1 xs h =>
    rw [h.resolve_left hn.ne', chunkCount]
    exact (Nat.div_eq_of_lt (by simp; omega)).symm
  | case2 xs h ih =>
    have hpos := List.length_pos_iff.2 (not_or.1 h).2
    rw [List.length_cons, ih, List.length_drop, chunkCount, chunkCount]
    by_cases hle : xs.length ≤ n
    · rw [show xs.length - n = 0 by omega, Nat.div_eq_of_lt (by omega)]
      exact (Nat.div_eq_of_lt_le (by omega) (by omega)).symm
    · rw [show xs.length + n - 1 = xs.length - n + n - 1 + n by omega, Nat.add_div_right _ hn]

theorem chunkCount_le_iff (hn : 0 < n) (k len : ℕ) :
    chunkCount n len ≤ k ↔ len ≤ k * n := by
  rw [chunkCount, ← Nat.lt_succ_iff, Nat.div_lt_iff_lt_mul hn, Nat.succ_mul]
  omega

theorem length_chunks_le {k : ℕ} (hn : 0 < n) (h : xs.length ≤ k * n) :
    (chunks n xs).length ≤ k := by
  rw [length_chunks hn]
  exact (chunkCount_le_iff hn k _).2 h

theorem chunks_of_length_le (hne : xs ≠ []) (hle : xs.length ≤ n) : chunks n xs = [xs] := by
  have hpos := List.length_pos_iff.2 hne
  rw [chunks_of_ne_nil (by omega) hne, List.take_of_length_le hle, List.drop_of_length_le hle, chunks_nil]

theorem chunks_append (h : n ∣ xs.length) (ys : List α) :
    chunks n (xs ++ ys) = chunks n xs ++ chunks n ys := by
  fun_induction chunks n xs with
  | case1 xs hxs =>
    obtain rfl | rfl := hxs
    · rw [chunks, dif_pos (.inl rfl), List.nil_append, chunks, dif_pos (.inl rfl)]
    · rfl
  | case2 xs hxs ih =>
    obtain ⟨hn, hne⟩ := not_or.1 hxs
    have hle := Nat.le_of_dvd (List.length_pos_iff.2 hne) h
    have hrest : n ∣ (xs.drop n).length := by
      rw [List.length_drop]
      exact Nat.dvd_sub h dvd_rfl
    rw [chunks_of_ne_nil (Nat.pos_of_ne_zero hn) (by simp [hne]), List.take_append_of_le_length hle,
      List.drop_append_of_le_length hle, ih hrest, List.cons_append]

theorem drop_chunks (hn : 0 < n) (xs : List α) (j : ℕ) :
    (chunks n xs).drop j = chunks n (xs.drop (j * n)) := by
  induction j generalizing xs with
  | zero => simp
  | succ j ih =>
    by_cases hxs : xs = []
    · simp [hxs, chunks_nil]
    · rw [chunks_of_ne_nil hn hxs, List.drop_succ_cons, ih, List.drop_drop, Nat.succ_mul,
        Nat.add_comm]

theorem length_of_mem_dropLast_chunks (h : part ∈ (chunks n xs).dropLast) : part.length = n := by
  fun_induction chunks n xs with
  | case1 xs _ => cases h
  | case2 xs hxs ih =>
    have hn : 0 < n := Nat.pos_of_ne_zero (not_or.1 hxs).1
    by_cases hrest : xs.drop n = []
    · rw [hrest, chunks_nil] at h
      cases h
    · rw [List.dropLast_cons_of_ne_nil (chunks_ne_nil hn hrest)] at h
      obtain rfl | h := List.mem_cons.1 h
      · rw [List.drop_eq_nil_iff, not_le] at hrest
        exact List.length_take_of_le hrest.le
      · exact ih h

theorem mapIdx_cons_add {β : Type} (f : ℕ → α → β) (j : ℕ) (x : α) (xs : List α) :
    (x :: xs).mapIdx (fun i ↦ f (j + i)) = f j x :: xs.mapIdx fun i ↦ f (j + 1 + i) := by
  have h : (fun i ↦ f (j + (i + 1))) = fun i ↦ f (j + 1 + i) := by
    funext i
    rw [Nat.add_right_comm, Nat.add_assoc]
  rw [List.mapIdx_cons, Nat.add_zero, h]

end SoundLink
