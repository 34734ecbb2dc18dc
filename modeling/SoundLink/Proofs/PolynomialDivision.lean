import SoundLink.Crc
import SoundLink.Proofs.Chunks
import Mathlib.RingTheory.AdjoinRoot
import Mathlib.Tactic

namespace SoundLink

open Polynomial

namespace Bits

/-- A byte as a polynomial over the field of two elements, its lowest bit the constant term. -/
noncomputable def polynomial (b : UInt8) : (ZMod 2)[X] :=
  ∑ i ∈ Finset.range 8, if b.toNat.testBit i then X ^ i else 0

/-- A message as a polynomial, the highest bit of its first byte at the highest power. -/
noncomputable def message : List UInt8 → (ZMod 2)[X]
  | [] => 0
  | b :: bs => polynomial b * X ^ (8 * bs.length) + message bs

theorem coeff_polynomial (b : UInt8) (k : ℕ) :
    (polynomial b).coeff k = if b.toBitVec.getLsbD k then 1 else 0 := by
  have hbit : b.toNat.testBit k = b.toBitVec.getLsbD k := BitVec.testBit_toNat _
  have hterm (i : ℕ) : (if b.toNat.testBit i then (X : (ZMod 2)[X]) ^ i else 0).coeff k =
      if i = k then if b.toNat.testBit i then 1 else 0 else 0 := by
    by_cases hi : i = k
    · split <;> simp [hi]
    · split <;> simp [coeff_X_pow, Ne.symm hi]
  rw [polynomial, finsetSum_coeff, Finset.sum_congr rfl fun i _ ↦ hterm i, Finset.sum_ite_eq', hbit]
  by_cases hk : k < 8
  · simp [hk]
  · simp [hk, BitVec.getLsbD_of_ge _ _ (not_lt.1 hk)]

theorem degree_polynomial_lt (b : UInt8) : (polynomial b).degree < 8 := by
  refine (degree_lt_iff_coeff_zero _ _).2 fun k hk ↦ ?_
  rw [coeff_polynomial, BitVec.getLsbD_of_ge _ _ hk]
  rfl

@[simp] theorem polynomial_zero : polynomial 0 = 0 := by
  ext k
  simp [coeff_polynomial]

theorem polynomial_inj {a b : UInt8} : polynomial a = polynomial b ↔ a = b := by
  refine ⟨fun h ↦ UInt8.toBitVec_inj.1 (BitVec.eq_of_getLsbD_eq fun k _ ↦ ?_), congrArg _⟩
  have hk := congrArg (coeff · k) h
  simp only [coeff_polynomial] at hk
  cases ha : a.toBitVec.getLsbD k <;> cases hb : b.toBitVec.getLsbD k <;> simp_all

theorem polynomial_xor (a b : UInt8) : polynomial (a ^^^ b) = polynomial a + polynomial b := by
  ext k
  rw [coeff_add]
  simp only [coeff_polynomial, UInt8.toBitVec_xor, BitVec.getLsbD_xor]
  cases a.toBitVec.getLsbD k <;> cases b.toBitVec.getLsbD k <;> decide

theorem and_two_pow_ne_zero_iff (b : UInt8) {k : ℕ} (hk : k < 8) :
    b &&& UInt8.ofNat (2 ^ k) ≠ 0 ↔ b.toBitVec.getLsbD k = true := by
  have hall : ∀ i : Fin 256, ∀ k : Fin 8, UInt8.ofFin i &&& UInt8.ofNat (2 ^ k.val) ≠ 0 ↔
      (UInt8.ofFin i).toBitVec.getLsbD k = true := by decide +kernel
  exact hall b.toFin ⟨k, hk⟩

theorem polynomial_shiftLeft (b : UInt8) :
    polynomial b * X = polynomial (b <<< 1) + if b &&& 0x80 ≠ 0 then X ^ 8 else 0 := by
  have hshift (k : ℕ) : (b <<< 1).toBitVec.getLsbD k =
      (decide (k < 8) && !decide (k < 1) && b.toBitVec.getLsbD (k - 1)) := by
    rw [show (b <<< 1).toBitVec = b.toBitVec <<< 1 from UInt8.toBitVec_shiftLeft b 1,
      BitVec.getLsbD_shiftLeft]
  have hcarry (k : ℕ) : (if b &&& 0x80 ≠ 0 then (X : (ZMod 2)[X]) ^ 8 else 0).coeff k =
      if k = 8 ∧ b.toBitVec.getLsbD 7 then 1 else 0 := by
    simp only [show b &&& 0x80 ≠ 0 ↔ _ from and_two_pow_ne_zero_iff b (by decide : 7 < 8)]
    split <;> simp_all [coeff_X_pow]
  ext k
  rw [coeff_add, coeff_polynomial, hshift, hcarry]
  cases k with
  | zero => simp
  | succ k =>
    rw [coeff_mul_X, coeff_polynomial]
    obtain hk | rfl | hk := lt_trichotomy k 7
    · simp [show k + 1 < 8 by omega, hk.ne]
    · simp
    · simp [BitVec.getLsbD_of_ge b.toBitVec k (by omega), show ¬k + 1 < 8 by omega, hk.ne']

end Bits

namespace Crc

noncomputable def generator (P : UInt8) : (ZMod 2)[X] := X ^ 8 + Bits.polynomial P

noncomputable def residue (P b : UInt8) : AdjoinRoot (generator P) :=
  AdjoinRoot.mk _ (Bits.polynomial b)

variable {P v : UInt8}

theorem monic_generator (P : UInt8) : (generator P).Monic :=
  monic_X_pow_add (Bits.degree_polynomial_lt P)

theorem degree_generator (P : UInt8) : (generator P).degree = 8 := by
  rw [generator, degree_add_eq_left_of_degree_lt, degree_X_pow]
  · rfl
  · rw [degree_X_pow]
    exact Bits.degree_polynomial_lt P

theorem residue_xor (a b : UInt8) : residue P (a ^^^ b) = residue P a + residue P b := by
  rw [residue, Bits.polynomial_xor, map_add]
  rfl

theorem residue_shift (v : UInt8) : residue P (shift P v) = residue P v * AdjoinRoot.root _ := by
  rw [residue, ← AdjoinRoot.mk_X, residue, ← map_mul, Bits.polynomial_shiftLeft, shift]
  split
  · rw [Bits.polynomial_xor, AdjoinRoot.mk_eq_mk]
    refine ⟨-1, ?_⟩
    rw [generator]
    have htwo : Bits.polynomial P + Bits.polynomial P = 0 := CharTwo.add_self_eq_zero _
    linear_combination htwo
  · rw [add_zero]

theorem residue_shifts (n : ℕ) (v : UInt8) :
    residue P (shifts P n v) = residue P v * AdjoinRoot.root _ ^ n := by
  induction n generalizing v with
  | zero => simp [shifts]
  | succ n ih => rw [shifts, ih, residue_shift, pow_succ']; ring

theorem updateBytes_cons (c : Crc) (v b : UInt8) (bs : List UInt8) :
    c.updateBytes v (b :: bs) = c.updateBytes (c.update v b) bs := rfl

theorem updateBytes_append (c : Crc) (v : UInt8) (as bs : List UInt8) :
    c.updateBytes v (as ++ bs) = c.updateBytes (c.updateBytes v as) bs := List.foldl_append

theorem update_eq (P v b : UInt8) : (ofPolynomial P).update v b = shifts P 8 (v ^^^ b) := by
  change (Vector.ofFn fun i ↦ shifts P 8 (UInt8.ofFin i))[(v ^^^ b).toFin.val] = _
  rw [Vector.getElem_ofFn]
  rfl

theorem residue_updateBytes (v : UInt8) (bytes : List UInt8) :
    residue P ((ofPolynomial P).updateBytes v bytes) =
      residue P v * AdjoinRoot.root _ ^ (8 * bytes.length) +
        AdjoinRoot.mk _ (Bits.message bytes) * AdjoinRoot.root _ ^ 8 := by
  induction bytes generalizing v with
  | nil => simp [updateBytes, Bits.message]
  | cons b bs ih =>
    have hmessage : AdjoinRoot.mk (generator P) (Bits.message (b :: bs)) =
        residue P b * AdjoinRoot.root _ ^ (8 * bs.length) + AdjoinRoot.mk _ (Bits.message bs) := by
      rw [Bits.message, map_add, map_mul, map_pow, AdjoinRoot.mk_X, residue]
    rw [updateBytes_cons, ih, update_eq, residue_shifts, residue_xor, hmessage, List.length_cons,
      Nat.mul_succ, pow_add]
    ring

theorem eq_modByMonic_iff (f : (ZMod 2)[X]) :
    Bits.polynomial v = f %ₘ generator P ↔ residue P v = AdjoinRoot.mk _ f := by
  have hself : Bits.polynomial v %ₘ generator P = Bits.polynomial v :=
    (modByMonic_eq_self_iff (monic_generator P)).2
      ((Bits.degree_polynomial_lt v).trans_eq (degree_generator P).symm)
  rw [residue, AdjoinRoot.mk_eq_mk]
  constructor
  · intro h
    rw [h]
    exact dvd_modByMonic_sub _ _
  · intro h
    rw [← hself]
    exact modByMonic_eq_of_dvd_sub (monic_generator P) h

theorem residue_inj {a b : UInt8} : residue P a = residue P b ↔ a = b := by
  refine ⟨fun h ↦ Bits.polynomial_inj.1 ?_, congrArg _⟩
  rw [(eq_modByMonic_iff (Bits.polynomial b)).2 h]
  exact ((eq_modByMonic_iff _).2 rfl).symm

theorem isCoprime_X_pow (hodd : P &&& 1 ≠ 0) (n : ℕ) : IsCoprime (generator P) (X ^ n) := by
  refine (IsCoprime.pow_left (irreducible_X.coprime_iff_not_dvd.2 ?_)).symm
  have hlow := (Bits.and_two_pow_ne_zero_iff P (by decide : 0 < 8)).1 hodd
  simp [X_dvd_iff, generator, Bits.coeff_polynomial, hlow]

end Crc

namespace Bits

variable {bits : List Bool}

theorem ofByte_toByte (h : bits.length ≤ 8) :
    ofByte (toByte bits) = bits ++ List.replicate (8 - bits.length) false := by
  have hall : ∀ a b c d e f g k : Bool,
      ofByte (UInt8.ofNat ([a, b, c, d, e, f, g, k].foldl (fun n bit ↦ 2 * n + bit.toNat) 0)) =
        [a, b, c, d, e, f, g, k] := by decide +kernel
  rw [toByte, List.take_of_length_le h]
  have hlen : (bits ++ List.replicate (8 - bits.length) false).length = 8 := by simp; omega
  generalize bits ++ List.replicate (8 - bits.length) false = padded at hlen
  obtain ⟨a, b, c, d, e, f, g, k, rfl⟩ : ∃ a b c d e f g k, padded = [a, b, c, d, e, f, g, k] := by
    match padded, hlen with
    | [a, b, c, d, e, f, g, k], _ => exact ⟨a, b, c, d, e, f, g, k, rfl⟩
  exact hall a b c d e f g k

def padding (bits : List Bool) : List Bool := List.replicate ((8 - bits.length % 8) % 8) false

theorem ofBytes_chunks (bits : List Bool) :
    ofBytes ((chunks 8 bits).map toByte) = bits ++ padding bits := by
  fun_induction chunks 8 bits with
  | case1 bits h =>
    obtain rfl := h.resolve_left (by decide)
    rfl
  | case2 bits h ih =>
    rw [List.map_cons, ofBytes, List.flatMap_cons, ofByte_toByte (List.length_take_le _ _)]
    change _ ++ ofBytes ((chunks 8 (bits.drop 8)).map toByte) = _
    rw [ih]
    by_cases hlong : 8 ≤ bits.length
    · have hmod : (bits.length - 8) % 8 = bits.length % 8 := by omega
      simp [padding, hlong, hmod, ← List.append_assoc]
    · have hpos := List.length_pos_iff.2 (not_or.1 h).2
      have hdrop : bits.drop 8 = [] := List.drop_of_length_le (by omega)
      have hmod : (8 - bits.length % 8) % 8 = 8 - bits.length := by omega
      simp [padding, hdrop, hmod, List.take_of_length_le (show bits.length ≤ 8 by omega)]

theorem toBytes_ofBytes (bytes : List UInt8) : (chunks 8 (ofBytes bytes)).map toByte = bytes := by
  have hlen (b : UInt8) : (ofByte b).length = 8 := by simp [ofByte]
  have hall : ∀ i : Fin 256, toByte (ofByte (UInt8.ofFin i)) = UInt8.ofFin i := by decide +kernel
  induction bytes with
  | nil => simp [ofBytes, chunks_nil]
  | cons b bs ih =>
    have hone : chunks 8 (ofByte b) = [ofByte b] := by
      have hne : ofByte b ≠ [] := List.ne_nil_of_length_pos (by rw [hlen]; decide)
      rw [chunks_of_ne_nil (by decide) hne, List.take_of_length_le (hlen b).le,
        List.drop_of_length_le (hlen b).le, chunks_nil]
    rw [ofBytes, List.flatMap_cons, chunks_append (by rw [hlen]), hone, List.map_append,
      List.map_singleton]
    exact congrArg₂ (· :: ·) (hall b.toFin) ih

end Bits

/-- A message leaves the remainder of its division in the register, after what was there before it.
Bits count as the bytes that they fill, the last one filled up with zeros, and may come in parts of
whole bytes. -/
theorem Crc.polynomial_register (P v : UInt8) :
    (∀ bytes, Bits.polynomial ((ofPolynomial P).updateBytes v bytes) =
      (Bits.polynomial v * X ^ (8 * bytes.length) + Bits.message bytes * X ^ 8) %ₘ
        (X ^ 8 + Bits.polynomial P)) ∧
    (∀ bits, (∃ bytes, Bits.ofBytes bytes = bits ++ Bits.padding bits) ∧
      ∀ bytes, Bits.ofBytes bytes = bits ++ Bits.padding bits →
        (ofPolynomial P).updateBits v bits = (ofPolynomial P).updateBytes v bytes) ∧
    ∀ first second, 8 ∣ first.length →
      (ofPolynomial P).updateBits ((ofPolynomial P).updateBits v first) second =
        (ofPolynomial P).updateBits v (first ++ second) := by
  refine ⟨fun bytes ↦ ?_, fun bits ↦ ⟨⟨_, Bits.ofBytes_chunks bits⟩, fun bytes h ↦ ?_⟩,
    fun first second h ↦ ?_⟩
  · refine (eq_modByMonic_iff _).2 ?_
    rw [residue_updateBytes, map_add, map_mul, map_mul, map_pow, map_pow, AdjoinRoot.mk_X, residue]
  · rw [updateBits, ← Bits.toBytes_ofBytes bytes, h, ← Bits.ofBytes_chunks, Bits.toBytes_ofBytes]
  · rw [updateBits, updateBits, updateBits, chunks_append h, List.map_append, updateBytes_append]

theorem Crc.polynomial_register_thirteen_bits :
    Bits.ofBytes [0x31, 0x28] =
        [false, false, true, true, false, false, false, true, false, false, true, false, true] ++
          Bits.padding [false, false, true, true, false, false, false, true, false, false, true,
            false, true] ∧
      (ofPolynomial 7).updateBits ((ofPolynomial 7).updateBits 0
        [false, false, true, true, false, false, false, true]) [false, false, true, false, true] =
        (ofPolynomial 7).updateBytes 0 [0x31, 0x28] := by
  obtain ⟨-, hbits, happend⟩ := polynomial_register 7 0
  refine ⟨by decide, ?_⟩
  rw [happend _ _ (by decide)]
  exact (hbits _).2 _ (by decide)

end SoundLink
