import SoundLink.Json
import SoundLink.Utf8
import Mathlib.Tactic

namespace SoundLink

namespace Utf8

variable {lead b : UInt8} {bytes rest : List UInt8} {n : ℕ}

theorem toNat_ofNat (h : n < 256) : (UInt8.ofNat n).toNat = n := by
  rw [UInt8.toNat_ofNat', Nat.mod_eq_of_lt h]

theorem following_eq (lead : UInt8) : following lead =
    if lead.toNat < 0x80 then some 0
    else if 0xc2 ≤ lead.toNat ∧ lead.toNat ≤ 0xdf then some 1
    else if 0xe0 ≤ lead.toNat ∧ lead.toNat ≤ 0xef then some 2
    else if 0xf0 ≤ lead.toNat ∧ lead.toNat ≤ 0xf4 then some 3
    else none := by
  simp only [following, UInt8.lt_iff_toNat_lt, UInt8.le_iff_toNat_le, Bool.and_eq_true, decide_eq_true_eq]
  rfl

theorem isSecond_iff : isSecond lead b = true ↔
    (0x80 ≤ b.toNat ∧ b.toNat ≤ 0xbf) ∧ (lead.toNat = 0xe0 → 0xa0 ≤ b.toNat) ∧
      (lead.toNat = 0xed → b.toNat ≤ 0x9f) ∧ (lead.toNat = 0xf0 → 0x90 ≤ b.toNat) ∧
      (lead.toNat = 0xf4 → b.toNat ≤ 0x8f) := by
  simp only [isSecond, ← UInt8.toNat_inj, UInt8.le_iff_toNat_le]
  simp only [UInt8.reduceToNat]
  split_ifs <;> simp <;> omega

theorem isContinuation_iff : isContinuation b = true ↔ 0x80 ≤ b.toNat ∧ b.toNat ≤ 0xbf := by
  simp [isContinuation, UInt8.le_iff_toNat_le]

theorem continuations_append (more : List UInt8) (hb : isSecond lead b = true)
    (hmore : ∀ c ∈ more, isContinuation c = true) :
    continuations lead (more.length + 1) (b :: (more ++ rest)) = b :: more := by
  rw [continuations, if_pos (by simpa using hb), Nat.add_sub_cancel,
    List.takeWhile_append_of_pos hmore, List.take_left]

theorem pieces_append (bytes : List UInt8) (hcount : following lead = some bytes.length)
    (hbytes : continuations lead bytes.length (bytes ++ rest) = bytes) :
    pieces (lead :: (bytes ++ rest)) = some (character lead bytes) :: pieces rest := by
  rw [pieces, hcount]
  simp only [hbytes, if_true, List.drop_left]

theorem continuations_zero (lead : UInt8) : continuations lead 0 bytes = [] := by
  cases bytes <;> simp [continuations]

theorem isContinuation_ofNat (k : ℕ) : isContinuation (UInt8.ofNat (k % 0x40 + 0x80)) = true := by
  rw [isContinuation_iff, toNat_ofNat (by omega)]
  omega

theorem isSecond_ofNat {m k : ℕ} (hm : m < 256) (hlow : m = 0xe0 → 0x20 ≤ k % 0x40)
    (hhigh : m = 0xed → k % 0x40 ≤ 0x1f) (hfour : m = 0xf0 → 0x10 ≤ k % 0x40)
    (htop : m = 0xf4 → k % 0x40 ≤ 0x0f) :
    isSecond (UInt8.ofNat m) (UInt8.ofNat (k % 0x40 + 0x80)) = true := by
  rw [isSecond_iff, toNat_ofNat hm, toNat_ofNat (by omega)]
  omega

theorem pieces_utf8EncodeChar (c : Char) (rest : List UInt8) :
    pieces (String.utf8EncodeChar c ++ rest) = some c :: pieces rest := by
  have hvalid : c.val.toNat < 0xd800 ∨ 0xdfff < c.val.toNat ∧ c.val.toNat < 0x110000 := c.valid
  have hself : Char.ofNat c.val.toNat = c := Char.ofNat_toNat c
  unfold String.utf8EncodeChar
  dsimp only
  generalize c.val.toNat = v at hvalid hself
  -- one case for each number of bytes; which bytes may be second depends on the leading one
  split_ifs with h₁ h₂ h₃
  · refine (pieces_append [] ?_ (continuations_zero _)).trans ?_
    · rw [following_eq, toNat_ofNat (by omega), if_pos (by omega), List.length_nil]
    · rw [character, List.foldl_nil, List.length_nil, leadBits, if_pos rfl, toNat_ofNat (by omega), hself]
  · refine (pieces_append [_] ?_
      (continuations_append [] ?_ (List.forall_mem_nil _))).trans ?_
    · rw [following_eq, toNat_ofNat (by omega), if_neg (by omega), if_pos (by omega), List.length_singleton]
    · exact isSecond_ofNat (by omega) (by omega) (by omega) (by omega) (by omega)
    · congr 2
      refine (congrArg Char.ofNat ?_).trans hself
      simp [leadBits]
      omega
  · refine (pieces_append [_, _] ?_ (continuations_append [_] ?_ ?_)).trans ?_
    · rw [following_eq, toNat_ofNat (by omega), if_neg (by omega), if_neg (by omega), if_pos (by omega)]
      rfl
    · exact isSecond_ofNat (by omega) (by omega) (by omega) (by omega) (by omega)
    · exact List.forall_mem_singleton.2 (isContinuation_ofNat _)
    · congr 2
      refine (congrArg Char.ofNat ?_).trans hself
      simp [leadBits]
      omega
  · refine (pieces_append [_, _, _] ?_ (continuations_append [_, _] ?_ ?_)).trans ?_
    · rw [following_eq, toNat_ofNat (by omega), if_neg (by omega), if_neg (by omega), if_neg (by omega),
        if_pos (by omega)]
      rfl
    · exact isSecond_ofNat (by omega) (by omega) (by omega) (by omega) (by omega)
    · exact List.forall_mem_cons.2
        ⟨isContinuation_ofNat _, List.forall_mem_singleton.2 (isContinuation_ofNat _)⟩
    · congr 2
      refine (congrArg Char.ofNat ?_).trans hself
      simp [leadBits]
      omega

theorem pieces_flatMap (cs : List Char) : pieces (cs.flatMap String.utf8EncodeChar) = cs.map some := by
  induction cs with
  | nil => rw [List.flatMap_nil, pieces, List.map_nil]
  | cons c cs ih => rw [List.flatMap_cons, pieces_utf8EncodeChar, ih, List.map_cons]

theorem toList_loop (bytes : ByteArray) (i : ℕ) (taken : List UInt8) :
    ByteArray.toList.loop bytes i taken = taken.reverse ++ bytes.data.toList.drop i := by
  fun_induction ByteArray.toList.loop bytes i taken with
  | case1 i taken h ih =>
    have hi : i < bytes.data.toList.length := h
    rw [ih, List.drop_eq_getElem_cons hi, List.reverse_cons, List.append_assoc]
    simp [ByteArray.get!, h]
  | case2 i taken h =>
    rw [List.drop_eq_nil_of_le (Nat.le_of_not_lt h), List.append_nil]

theorem encode_eq (s : String) : encode s = s.toList.flatMap String.utf8EncodeChar := by
  rw [encode, String.toUTF8_eq_toByteArray, ← String.utf8Encode_toList, List.utf8Encode,
    ByteArray.toList, toList_loop, List.data_toByteArray]
  rfl

theorem decode?_encode (s : String) : decode? (encode s) = some s := by
  have hall : s.toList.mapM (id ∘ some) = some s.toList :=
    (List.mapM_pure (f := id)).trans (by rw [List.map_id]; rfl)
  rw [decode?, encode_eq, pieces_flatMap, List.mapM_map, hall, Option.map_some, String.ofList_toList]

end Utf8

namespace Points

theorem toChars?_map (cs : List Char) : toChars? (cs.map Char.val) = some cs := by
  induction cs with
  | nil => rfl
  | cons c cs ih => rw [List.map_cons, toChars?, dif_pos c.valid, ih, Option.map_some]

theorem toString?_ofString (s : String) : (ofString s).toString? = some s := by
  rw [toString?, ofString, toChars?_map, Option.map_some, String.ofList_toList]

theorem toChars?_eq_some {ps : Points} {cs : List Char} (h : ps.toChars? = some cs) :
    ps = cs.map Char.val := by
  induction ps generalizing cs with
  | nil =>
    obtain rfl := Option.some.inj h
    rfl
  | cons p ps ih =>
    rw [toChars?] at h
    split at h
    · obtain ⟨cs, hcs, rfl⟩ := Option.map_eq_some_iff.1 h
      rw [List.map_cons, ← ih hcs]
    · cases h

theorem toString?_eq_some {ps : Points} {s : String} : ps.toString? = some s ↔ ps = ofString s := by
  constructor
  · intro h
    obtain ⟨cs, hcs, rfl⟩ := Option.map_eq_some_iff.1 h
    rw [toChars?_eq_some hcs, ofString, String.toList_ofList]
  · rintro rfl
    exact toString?_ofString s

theorem ofString_injective : Function.Injective ofString := fun s t h ↦
  Option.some.inj ((toString?_ofString s).symm.trans (h ▸ toString?_ofString t))

end Points

end SoundLink
