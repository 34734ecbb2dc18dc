import SoundLink.LineCode
import Mathlib.Data.List.GetD
import Mathlib.Tactic

namespace SoundLink.LineCode

theorem toNat_ofNat_of_lt {i : ℕ} (h : i < 1024) : (UInt16.ofNat i).toNat = i := by
  rw [UInt16.toNat_ofNat']
  exact Nat.mod_eq_of_lt (by omega)

theorem lt_of_mem_admissible {c : UInt16} (h : c ∈ admissible) : c.toNat < 1024 := by
  obtain ⟨i, hi, rfl⟩ := List.mem_map.1 (List.mem_filter.1 h).1
  rw [List.mem_range] at hi
  rwa [toNat_ofNat_of_lt hi]

theorem nodup_admissible : admissible.Nodup := by
  refine List.Nodup.filter _ (List.Nodup.map_on (fun i hi j hj hij ↦ ?_) List.nodup_range)
  rw [List.mem_range] at hi hj
  rw [← toNat_ofNat_of_lt hi, ← toNat_ofNat_of_lt hj, hij]

theorem mem_admissible_of_mem_codewords {c : UInt16} (h : c ∈ codewords) : c ∈ admissible := by
  obtain h | h := List.mem_append.1 (List.mem_of_mem_take h)
  · exact (List.mem_filter.1 h).1
  · exact (List.mem_filter.1 h).1

theorem nodup_codewords : codewords.Nodup := by
  refine (List.take_sublist _ _).nodup (List.nodup_append.2
    ⟨nodup_admissible.filter _, nodup_admissible.filter _, fun a ha b hb hab ↦ ?_⟩)
  have h₁ := (List.mem_filter.1 ha).2
  have h₂ := (List.mem_filter.1 hb).2
  simp only [Bool.or_eq_true, decide_eq_true_eq, ← hab] at h₁ h₂
  omega

theorem length_codewords : codewords.length = 256 := by decide +kernel

theorem getElem?_codewords (b : UInt8) : codewords[b.toNat]? = some (encode b) := by
  have h : b.toNat < codewords.length := by
    rw [length_codewords]
    exact b.toNat_lt
  rw [List.getElem?_eq_getElem h, encode, List.getD_eq_getElem _ _ h]

theorem encode_mem (b : UInt8) : encode b ∈ codewords := List.mem_of_getElem? (getElem?_codewords b)

theorem encode_lt (b : UInt8) : (encode b).toNat < 1024 :=
  lt_of_mem_admissible (mem_admissible_of_mem_codewords (encode_mem b))

theorem decode_encode (b : UInt8) : decode (encode b) = some b := by
  obtain ⟨h, he⟩ := List.getElem?_eq_some_iff.1 (getElem?_codewords b)
  rw [decode, ← he, List.idxOf?_eq_some_iff.2 ⟨h, rfl, fun j hj hij ↦ ?_⟩, Option.map_some,
    UInt8.ofNat_toNat]
  have := nodup_codewords.getElem_inj_iff.1 hij
  omega

theorem decode_zero : decode 0 = none := by
  have h : (0 : UInt16) ∉ codewords := fun hmem ↦
    absurd (List.mem_filter.1 (mem_admissible_of_mem_codewords hmem)).2 (by decide)
  rw [decode, List.idxOf?_eq_none_iff.2 h, Option.map_none]

/-- A codeword after more bits, of which the first goes to place `j`. -/
def gather (code : UInt16) (j : ℕ) : List Bool → UInt16
  | [] => code
  | b :: bs => gather (if b then code ||| (1 <<< UInt16.ofNat j) else code) (j + 1) bs

theorem gather_bits {code : UInt16} (h : code.toNat < 1024) : gather 0 0 (bits code) = code := by
  have hall : ∀ i : Fin 1024, gather 0 0 (bits (UInt16.ofNat i)) = UInt16.ofNat i := by
    decide +kernel
  have hc := hall ⟨code.toNat, h⟩
  rwa [UInt16.ofNat_toNat] at hc

theorem gather_sent (b : UInt8) : gather 0 0 (sent b) = encode b := gather_bits (encode_lt b)

theorem length_sent (b : UInt8) : (sent b).length = wordBits := by simp [sent, bits]

end SoundLink.LineCode
