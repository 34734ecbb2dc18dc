import SoundLink.Json.Lexer
import SoundLink.Json.Printer
import SoundLink.Proofs.Unicode

namespace SoundLink

namespace Numeral

def IsDigits (ds : List Char) : Prop := ds ≠ [] ∧ ∀ c ∈ ds, c.isDigit = true

structure Proper (n : Numeral) : Prop where
  whole : IsDigits n.whole
  head : n.whole.head? = some '0' → n.whole.length ≤ 1
  decimals : ∀ ds ∈ n.decimals, IsDigits ds
  exponent : ∀ e ∈ n.exponent, IsDigits e.2

def Ends (cs : List Char) : Prop := ∀ c ∈ cs.head?, c.isDigit = false ∧ c ≠ '.' ∧ c ≠ 'e' ∧ c ≠ 'E'

theorem ends_cons {c : Char} (cs : List Char)
    (h : c.isDigit = false ∧ c ≠ '.' ∧ c ≠ 'e' ∧ c ≠ 'E') : Ends (c :: cs) := by
  intro d hd
  obtain rfl := Option.some.inj hd
  exact h

def decimalChars : Option (List Char) → List Char
  | none => []
  | some ds => '.' :: ds

def exponentChars : Option (Bool × List Char) → List Char
  | none => []
  | some (negative, ds) => 'e' :: (if negative then '-' :: ds else ds)

theorem chars_eq (n : Numeral) : n.chars = (if n.negative then ['-'] else []) ++
    (n.whole ++ (decimalChars n.decimals ++ exponentChars n.exponent)) := by
  obtain ⟨_, _, _ | _, _ | _⟩ := n <;> simp [chars, decimalChars, exponentChars]

end Numeral

namespace Token

open Numeral

variable {ds rest : List Char}

theorem digits_append (hds : ∀ c ∈ ds, c.isDigit = true) (hrest : ∀ c ∈ rest.head?, c.isDigit = false) :
    digits (ds ++ rest) = (ds, rest) := by
  rw [digits, List.takeWhile_append_of_pos hds, List.dropWhile_append_of_pos hds]
  cases rest with
  | nil => simp
  | cons c rest =>
    have hc : ¬c.isDigit = true := Bool.eq_false_iff.1 (hrest c rfl)
    rw [List.takeWhile_cons_of_neg hc, List.dropWhile_cons_of_neg hc, List.append_nil]

theorem decimals?_some (hds : IsDigits ds) (hrest : ∀ c ∈ rest.head?, c.isDigit = false) :
    decimals? ('.' :: (ds ++ rest)) = some (some ds, rest) := by
  rw [decimals?, digits_append hds.2 hrest]
  obtain ⟨d, ds, rfl⟩ := List.exists_cons_of_ne_nil hds.1
  rfl

theorem decimals?_none (hrest : ∀ c ∈ rest.head?, c ≠ '.') : decimals? rest = some (none, rest) := by
  unfold decimals?
  split
  next => exact absurd rfl (hrest _ rfl)
  next => rfl

theorem exponentDigits?_append (negative : Bool) (hds : IsDigits ds)
    (hrest : ∀ c ∈ rest.head?, c.isDigit = false) :
    exponentDigits? negative (ds ++ rest) = some (some (negative, ds), rest) := by
  rw [exponentDigits?, digits_append hds.2 hrest]
  obtain ⟨d, ds, rfl⟩ := List.exists_cons_of_ne_nil hds.1
  rfl

theorem exponent?_some {negative : Bool} (hds : IsDigits ds) (hrest : ∀ c ∈ rest.head?, c.isDigit = false) :
    exponent? (exponentChars (some (negative, ds)) ++ rest) = some (some (negative, ds), rest) := by
  cases negative with
  | true => exact exponentDigits?_append true hds hrest
  | false =>
    refine Eq.trans ?_ (exponentDigits?_append false hds hrest)
    obtain ⟨d, ds, rfl⟩ := List.exists_cons_of_ne_nil hds.1
    have hd := hds.2 d List.mem_cons_self
    change exponent? ('e' :: (d :: ds ++ rest)) = _
    rw [exponent?]
    · exact if_pos rfl
    all_goals
      rintro cs ⟨⟩
      cases hd

theorem exponent?_none (hrest : ∀ c ∈ rest.head?, c ≠ 'e' ∧ c ≠ 'E') : exponent? rest = some (none, rest) := by
  cases rest with
  | nil => rfl
  | cons c rest =>
    obtain ⟨hlow, hupper⟩ := hrest c rfl
    unfold exponent?
    exact if_neg (by simp [hlow, hupper])

variable {n : Numeral}

theorem exponent?_append (hn : n.Proper) (hrest : Ends rest) :
    exponent? (exponentChars n.exponent ++ rest) = some (n.exponent, rest) := by
  cases he : n.exponent with
  | none => exact exponent?_none fun c hc ↦ (hrest c hc).2.2
  | some e => exact exponent?_some (hn.exponent e he) fun c hc ↦ (hrest c hc).1

theorem head?_exponentChars (hrest : Ends rest) :
    ∀ c ∈ (exponentChars n.exponent ++ rest).head?, c.isDigit = false ∧ c ≠ '.' := by
  cases n.exponent with
  | none => exact fun c hc ↦ ⟨(hrest c hc).1, (hrest c hc).2.1⟩
  | some e =>
    rintro c ⟨⟩
    exact ⟨rfl, by decide⟩

theorem decimals?_append (hn : n.Proper) (hrest : Ends rest) :
    decimals? (decimalChars n.decimals ++ (exponentChars n.exponent ++ rest)) =
      some (n.decimals, exponentChars n.exponent ++ rest) := by
  cases hd : n.decimals with
  | none => exact decimals?_none fun c hc ↦ (head?_exponentChars hrest c hc).2
  | some ds => exact decimals?_some (hn.decimals ds hd) fun c hc ↦ (head?_exponentChars hrest c hc).1

theorem head?_decimalChars (hrest : Ends rest) :
    ∀ c ∈ (decimalChars n.decimals ++ (exponentChars n.exponent ++ rest)).head?, c.isDigit = false := by
  cases n.decimals with
  | none => exact fun c hc ↦ (head?_exponentChars hrest c hc).1
  | some ds =>
    rintro c ⟨⟩
    rfl

/-- A number is read up to its end, whatever stands behind it. -/
theorem numeral?_append (hn : n.Proper) (hrest : Ends rest) :
    numeral? n.negative (n.whole ++ (decimalChars n.decimals ++ (exponentChars n.exponent ++ rest))) =
      some (n, rest) := by
  have hwhole : ¬(n.whole = [] || (n.whole.head? = some '0' && 1 < n.whole.length)) = true := by
    have hhead := hn.head
    simpa [hn.whole.1] using fun h ↦ hhead h
  rw [numeral?, digits_append hn.whole.2 (head?_decimalChars hrest)]
  dsimp only
  rw [if_neg hwhole, decimals?_append hn hrest, Option.bind_eq_bind, Option.bind_some]
  dsimp only
  rw [exponent?_append hn hrest]
  rfl

theorem first?_digit {c : Char} (cs : List Char) (hc : c.isDigit = true) :
    first? (c :: cs) = (numeral? false (c :: cs)).map fun (n, rest) ↦ (.number n, rest) := by
  rw [first?]
  all_goals
    rintro rest ⟨⟩
    cases hc

theorem first?_number (hn : n.Proper) (hrest : Ends rest) :
    first? (n.chars ++ rest) = some (.number n, rest) := by
  have hread := numeral?_append hn hrest
  rw [chars_eq]
  simp only [List.append_assoc]
  cases hsign : n.negative with
  | true =>
    rw [hsign] at hread
    rw [if_pos rfl, List.singleton_append]
    change (numeral? true _).map _ = _
    rw [hread, Option.map_some]
  | false =>
    rw [hsign] at hread
    rw [if_neg Bool.false_ne_true, List.nil_append]
    obtain ⟨d, ds, hds⟩ := List.exists_cons_of_ne_nil hn.whole.1
    have hd : d.isDigit = true := hn.whole.2 d (hds ▸ List.mem_cons_self)
    rw [hds, List.cons_append] at hread ⊢
    rw [first?_digit _ hd, hread, Option.map_some]

def prepend (u : UInt32) : Points × List Char → Points × List Char
  | (us, rest) => (u :: us, rest)

theorem units?_mark {c : Char} {u : UInt32} (cs : List Char) (hc : c ≠ 'u') (hu : escape? c = some u) :
    units? ('\\' :: c :: cs) = (units? cs).map (prepend u) := by
  rw [units?, hu]
  · cases units? cs <;> rfl
  · exact fun _ _ _ _ _ h ↦ absurd h hc

theorem units?_hex {c₁ c₂ c₃ c₄ : Char} {u : UInt32} (cs : List Char) (hu : unit? c₁ c₂ c₃ c₄ = some u) :
    units? ('\\' :: 'u' :: c₁ :: c₂ :: c₃ :: c₄ :: cs) = (units? cs).map (prepend u) := by
  change (unit? c₁ c₂ c₃ c₄).bind _ = _
  rw [hu]
  cases units? cs <;> rfl

theorem units?_char {c : Char} (cs : List Char) (hquote : c ≠ '"') (hslash : c ≠ '\\')
    (hcontrol : ¬c.val < 32) : units? (c :: cs) = (units? cs).map (prepend c.val) := by
  rw [units?, if_neg (by simp [hslash, hcontrol])]
  · cases units? cs <;> rfl
  · exact fun h ↦ hquote h
  · exact fun _ _ _ _ _ h ↦ absurd h hslash
  · exact fun _ _ h ↦ absurd h hslash

theorem unit?_control : ∀ n < 32, unit? (Hex.digit (n / 4096)) (Hex.digit (n / 256 % 16))
    (Hex.digit (n / 16 % 16)) (Hex.digit (n % 16)) = some (UInt32.ofNat n) := by
  decide +kernel

theorem not_surrogate (c : Char) : ¬(0xd800 ≤ c.val ∧ c.val < 0xe000) := by
  have hvalid : c.val.toNat < 0xd800 ∨ 0xdfff < c.val.toNat ∧ c.val.toNat < 0x110000 := c.valid
  rw [UInt32.le_iff_toNat_le, UInt32.lt_iff_toNat_lt]
  simp only [UInt32.reduceToNat]
  omega

theorem units?_escape (c : Char) (cs : List Char) :
    units? (Json.escape c.val ++ cs) = (units? cs).map (prepend c.val) := by
  unfold Json.escape
  split_ifs with h₁ h₂ h₃ h₄ h₅ h₆ h₇ h₈
  · exact h₁ ▸ units?_mark cs (by decide) rfl
  · exact h₂ ▸ units?_mark cs (by decide) rfl
  · exact h₃ ▸ units?_mark cs (by decide) rfl
  · exact h₄ ▸ units?_mark cs (by decide) rfl
  · exact h₅ ▸ units?_mark cs (by decide) rfl
  · exact h₆ ▸ units?_mark cs (by decide) rfl
  · exact h₇ ▸ units?_mark cs (by decide) rfl
  · rw [Bool.or_eq_true, Bool.and_eq_true] at h₈
    simp only [decide_eq_true_eq, not_surrogate, or_false] at h₈
    have hcontrol : c.val.toNat < 32 := UInt32.lt_iff_toNat_lt.1 h₈
    have hunit := unit?_control c.val.toNat hcontrol
    rw [UInt32.ofNat_toNat] at hunit
    exact units?_hex cs hunit
  · rw [show Char.ofNat c.val.toNat = c from Char.ofNat_toNat c]
    refine units?_char cs ?_ ?_ ?_
    · rintro rfl
      exact h₁ rfl
    · rintro rfl
      exact h₂ rfl
    · intro hcontrol
      exact h₈ (by simp [hcontrol])

theorem units?_quoted (s : List Char) (rest : List Char) :
    units? ((s.map Char.val).flatMap Json.escape ++ '"' :: rest) = some (s.map Char.val, rest) := by
  induction s with
  | nil => rfl
  | cons c s ih =>
    rw [List.map_cons, List.flatMap_cons, List.append_assoc, units?_escape, ih]
    rfl

theorem joinSurrogates_map (s : List Char) : joinSurrogates (s.map Char.val) = s.map Char.val := by
  induction s with
  | nil => rfl
  | cons c s ih =>
    cases s with
    | nil => rfl
    | cons d s =>
      have hhigh : ¬(0xd800 ≤ c.val && c.val < 0xdc00 && 0xdc00 ≤ d.val && d.val < 0xe000) = true := by
        simp only [Bool.and_eq_true, decide_eq_true_eq]
        exact fun h ↦ not_surrogate c ⟨h.1.1.1, UInt32.lt_trans h.1.1.2 (by decide)⟩
      rw [List.map_cons, List.map_cons, joinSurrogates, if_neg hhigh, ← List.map_cons, ih]

theorem first?_quoted (s : String) (rest : List Char) :
    first? (Json.quoted (Points.ofString s) ++ rest) = some (.text (Points.ofString s), rest) := by
  rw [Json.quoted, List.cons_append, List.cons_append, List.append_assoc, List.singleton_append]
  change (units? _).map _ = _
  rw [Points.ofString, units?_quoted, Option.map_some]
  dsimp only
  rw [joinSurrogates_map]

/-- A text splits into these tokens, however much fuel there is beyond its length. -/
def Lexes (cs : List Char) (ts : List Token) : Prop := ∀ fuel, cs.length ≤ fuel → allWithin fuel cs = some ts

theorem isBlank_digit {c : Char} (hc : c.isDigit = true) : isBlank c = false := by
  rw [← Bool.not_eq_true]
  intro hblank
  simp only [isBlank, Bool.or_eq_true, decide_eq_true_eq] at hblank
  obtain ((rfl | rfl) | rfl) | rfl := hblank <;> cases hc

namespace Lexes

variable {cs rest : List Char} {ts : List Token} {t : Token}

theorem all? (h : Lexes cs ts) : Token.all? cs = some ts := h cs.length le_rfl

theorem nil : Lexes [] [] := by
  rintro (_ | _) - <;> rfl

theorem blank {c : Char} (hc : isBlank c = true) (h : Lexes cs ts) : Lexes (c :: cs) ts := by
  rintro (_ | fuel) hfuel
  · cases hfuel
  · rw [allWithin, if_pos hc]
    exact h fuel (Nat.le_of_succ_le_succ hfuel)

theorem blanks {bs : List Char} (hbs : ∀ c ∈ bs, isBlank c = true) (h : Lexes cs ts) :
    Lexes (bs ++ cs) ts := by
  induction bs with
  | nil => exact h
  | cons b bs ih =>
    rw [List.forall_mem_cons] at hbs
    exact (ih hbs.2).blank hbs.1

theorem cons {c : Char} (hc : isBlank c = false) (hfirst : first? (c :: cs) = some (t, rest))
    (hlength : rest.length ≤ cs.length) (h : Lexes rest ts) : Lexes (c :: cs) (t :: ts) := by
  rintro (_ | fuel) hfuel
  · cases hfuel
  · rw [allWithin, if_neg (Bool.eq_false_iff.1 hc), hfirst]
    dsimp only
    rw [h fuel (hlength.trans (Nat.le_of_succ_le_succ hfuel)), Option.map_some]

theorem append {text : List Char} (hhead : ∃ c cs, text = c :: cs ∧ isBlank c = false)
    (hfirst : first? (text ++ rest) = some (t, rest)) (h : Lexes rest ts) :
    Lexes (text ++ rest) (t :: ts) := by
  obtain ⟨c, cs, rfl, hc⟩ := hhead
  refine cons hc hfirst ?_ h
  simp

theorem braceOpen (h : Lexes rest ts) : Lexes ('\x7b' :: rest) (.braceOpen :: ts) :=
  cons rfl rfl le_rfl h

theorem braceClose (h : Lexes rest ts) : Lexes ('\x7d' :: rest) (.braceClose :: ts) :=
  cons rfl rfl le_rfl h

theorem bracketOpen (h : Lexes rest ts) : Lexes ('[' :: rest) (.bracketOpen :: ts) :=
  cons rfl rfl le_rfl h

theorem bracketClose (h : Lexes rest ts) : Lexes (']' :: rest) (.bracketClose :: ts) :=
  cons rfl rfl le_rfl h

theorem comma (h : Lexes rest ts) : Lexes (',' :: rest) (.comma :: ts) := cons rfl rfl le_rfl h

theorem colon (h : Lexes rest ts) : Lexes (':' :: rest) (.colon :: ts) := cons rfl rfl le_rfl h

theorem quoted (s : String) (h : Lexes rest ts) :
    Lexes (Json.quoted (Points.ofString s) ++ rest) (.text (Points.ofString s) :: ts) :=
  append ⟨'"', _, rfl, rfl⟩ (first?_quoted s rest) h

theorem number {n : Numeral} (hn : n.Proper) (hrest : Ends rest) (h : Lexes rest ts) :
    Lexes (n.chars ++ rest) (.number n :: ts) := by
  refine append ?_ (first?_number hn hrest) h
  obtain ⟨d, ds, hds⟩ := List.exists_cons_of_ne_nil hn.whole.1
  have hd : d.isDigit = true := hn.whole.2 d (hds ▸ List.mem_cons_self)
  rw [chars_eq, hds]
  cases n.negative with
  | true => exact ⟨'-', _, rfl, rfl⟩
  | false =>
    exact ⟨d, _, rfl, isBlank_digit hd⟩

end Lexes

end Token

namespace Json

open Token Numeral

mutual

/-- Whether numbers are spelled by the grammar and texts, member names included, are strings. -/
def Proper : Json → Prop
  | .number n => n.Proper
  | .text ps => ∃ s, ps = Points.ofString s
  | .list items => ProperItems items
  | .record members => ProperMembers members
  | .null | .bool _ => True

def ProperItems : List Json → Prop
  | [] => True
  | j :: rest => j.Proper ∧ ProperItems rest

def ProperMembers : List (Points × Json) → Prop
  | [] => True
  | (key, j) :: rest => (∃ s, key = Points.ofString s) ∧ j.Proper ∧ ProperMembers rest

end

mutual

def tokens : Json → List Token
  | .null => [.null]
  | .bool b => [.bool b]
  | .number n => [.number n]
  | .text ps => [.text ps]
  | .list [] => [.bracketOpen, .bracketClose]
  | .list (j :: items) => .bracketOpen :: (j.tokens ++ (itemTokens items ++ [.bracketClose]))
  | .record [] => [.braceOpen, .braceClose]
  | .record ((key, j) :: members) =>
    .braceOpen :: .text key :: .colon :: (j.tokens ++ (memberTokens members ++ [.braceClose]))

def itemTokens : List Json → List Token
  | [] => []
  | j :: items => .comma :: (j.tokens ++ itemTokens items)

def memberTokens : List (Points × Json) → List Token
  | [] => []
  | (key, j) :: members => .comma :: .text key :: .colon :: (j.tokens ++ memberTokens members)

end

variable (l : Layout)

theorem blank_newline (level : ℕ) : ∀ c ∈ l.newline level, isBlank c = true := by
  cases l with
  | line => exact List.forall_mem_nil _
  | indented =>
    intro c hc
    obtain rfl | hc := List.mem_cons.1 hc
    · rfl
    · rw [List.eq_of_mem_replicate hc]
      rfl

theorem lexes_colon {rest : List Char} {ts : List Token} (h : Lexes rest ts) :
    Lexes (l.colon ++ rest) (.colon :: ts) := by
  cases l with
  | line => exact h.colon
  | indented => exact (h.blank rfl).colon

theorem ends_newline {c : Char} (level : ℕ) (rest : List Char)
    (h : c.isDigit = false ∧ c ≠ '.' ∧ c ≠ 'e' ∧ c ≠ 'E') : Ends (l.newline level ++ c :: rest) := by
  cases l with
  | line => exact ends_cons rest h
  | indented => exact ends_cons _ (by decide)

theorem ends_itemChars {rest : List Char} (level : ℕ) (items : List Json) (h : Ends rest) :
    Ends (itemChars l level items ++ rest) := by
  cases items with
  | nil => exact h
  | cons j items =>
    rw [itemChars]
    exact ends_cons _ (by decide)

theorem ends_memberChars {rest : List Char} (level : ℕ) (members : List (Points × Json)) (h : Ends rest) :
    Ends (memberChars l level members ++ rest) := by
  cases members with
  | nil => exact h
  | cons m members =>
    rw [memberChars]
    exact ends_cons _ (by decide)

mutual

/-- What is printed of a value splits into its tokens, before any text that a number ends at. -/
theorem lexes_chars {rest : List Char} {ts : List Token} (level : ℕ) (j : Json) (hj : j.Proper)
    (hrest : Ends rest) (h : Lexes rest ts) : Lexes (j.chars l level ++ rest) (j.tokens ++ ts) := by
  match j with
  | .null => exact .append ⟨'n', _, rfl, rfl⟩ (by simp [chars, first?]) h
  | .bool true => exact .append ⟨'t', _, rfl, rfl⟩ (by simp [chars, first?]) h
  | .bool false => exact .append ⟨'f', _, rfl, rfl⟩ (by simp [chars, first?]) h
  | .number n =>
    rw [Proper] at hj
    rw [chars, tokens]
    exact h.number hj hrest
  | .text ps =>
    rw [Proper] at hj
    obtain ⟨s, rfl⟩ := hj
    rw [chars, tokens]
    exact h.quoted s
  | .list [] =>
    rw [chars, tokens]
    exact h.bracketClose.bracketOpen
  | .list (j :: items) =>
    rw [Proper, ProperItems] at hj
    have hclose := ends_newline l level rest (c := ']') (by decide)
    have hitems := lexes_itemChars (level + 1) items hj.2 hclose (h.bracketClose.blanks (blank_newline l level))
    have hfirst := lexes_chars (level + 1) j hj.1 (ends_itemChars l (level + 1) items hclose) hitems
    rw [chars, tokens]
    simpa using (hfirst.blanks (blank_newline l (level + 1))).bracketOpen
  | .record [] =>
    rw [chars, tokens]
    exact h.braceClose.braceOpen
  | .record ((key, j) :: members) =>
    rw [Proper, ProperMembers] at hj
    obtain ⟨⟨s, rfl⟩, hj, hmembers⟩ := hj
    have hclose := ends_newline l level rest (c := '\x7d') (by decide)
    have hmembers := lexes_memberChars (level + 1) members hmembers hclose
      (h.braceClose.blanks (blank_newline l level))
    have hfirst := lexes_chars (level + 1) j hj (ends_memberChars l (level + 1) members hclose) hmembers
    rw [chars, tokens]
    simpa using (((lexes_colon l hfirst).quoted s).blanks (blank_newline l (level + 1))).braceOpen

theorem lexes_itemChars {rest : List Char} {ts : List Token} (level : ℕ) (items : List Json)
    (hitems : ProperItems items) (hrest : Ends rest) (h : Lexes rest ts) :
    Lexes (itemChars l level items ++ rest) (itemTokens items ++ ts) := by
  match items with
  | [] => exact h
  | j :: items =>
    rw [ProperItems] at hitems
    have htail := lexes_itemChars level items hitems.2 hrest h
    have hfirst := lexes_chars level j hitems.1 (ends_itemChars l level items hrest) htail
    rw [itemChars, itemTokens]
    simpa using (hfirst.blanks (blank_newline l level)).comma

theorem lexes_memberChars {rest : List Char} {ts : List Token} (level : ℕ) (members : List (Points × Json))
    (hmembers : ProperMembers members) (hrest : Ends rest) (h : Lexes rest ts) :
    Lexes (memberChars l level members ++ rest) (memberTokens members ++ ts) := by
  match members with
  | [] => exact h
  | (key, j) :: members =>
    rw [ProperMembers] at hmembers
    obtain ⟨⟨s, rfl⟩, hj, hmembers⟩ := hmembers
    have htail := lexes_memberChars level members hmembers hrest h
    have hfirst := lexes_chars level j hj (ends_memberChars l level members hrest) htail
    rw [memberChars, memberTokens]
    simpa using (((lexes_colon l hfirst).quoted s).blanks (blank_newline l level)).comma

end

end Json

end SoundLink
