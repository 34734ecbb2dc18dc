import SoundLink.Json.Reader
import SoundLink.Proofs.JsonLexing

namespace SoundLink.Json

open Token

variable {ts : List Token}

theorem foldlM_cons_of {m n : Machine} {t : Token} (h : advance m t = some n) :
    (t :: ts).foldlM advance m = ts.foldlM advance n := by
  rw [List.foldlM_cons, h, Option.bind_eq_bind, Option.bind_some]

theorem tokens_eq_cons (j : Json) : ∃ t rest, j.tokens = t :: rest ∧ t ≠ .bracketClose := by
  cases j with
  | list items => cases items <;> exact ⟨_, _, by rw [tokens], by decide⟩
  | record members => cases members <;> exact ⟨_, _, by rw [tokens], by decide⟩
  | _ => exact ⟨_, _, by rw [tokens], by simp⟩

theorem foldlM_listStart (stack : List Frame) (j : Json) :
    (j.tokens ++ ts).foldlM advance (stack, .listStart) =
      (j.tokens ++ ts).foldlM advance (.list [] :: stack, .value) := by
  obtain ⟨t, rest, hj, ht⟩ := tokens_eq_cons j
  rw [hj, List.cons_append, List.foldlM_cons, List.foldlM_cons]
  congr 1
  cases t <;> first | rfl | exact absurd rfl ht

mutual

/-- The tokens of a value deliver it to the innermost open list or record. -/
theorem foldlM_tokens (ts : List Token) (stack : List Frame) (j : Json) :
    (j.tokens ++ ts).foldlM advance (stack, .value) = ts.foldlM advance (deliver j stack) := by
  match j with
  | .null | .bool _ | .number _ | .text _ =>
    rw [tokens]
    exact foldlM_cons_of rfl
  | .list [] =>
    rw [tokens]
    exact (foldlM_cons_of rfl).trans (foldlM_cons_of rfl)
  | .list (j :: items) =>
    rw [tokens, List.cons_append, foldlM_cons_of (n := (stack, .listStart)) rfl, List.append_assoc,
      List.append_assoc, foldlM_listStart, foldlM_tokens _ _ j]
    exact foldlM_itemTokens ts stack [j] items
  | .record [] =>
    rw [tokens]
    exact (foldlM_cons_of rfl).trans (foldlM_cons_of rfl)
  | .record ((key, j) :: members) =>
    rw [tokens, List.cons_append, foldlM_cons_of (n := (stack, .recordStart)) rfl, List.cons_append,
      foldlM_cons_of (n := (stack, .colon [] key)) rfl, List.cons_append,
      foldlM_cons_of (n := (.record [] key :: stack, .value)) rfl, List.append_assoc, List.append_assoc,
      foldlM_tokens _ _ j]
    exact foldlM_memberTokens ts stack [(key, j)] members

theorem foldlM_itemTokens (ts : List Token) (stack : List Frame) (read items : List Json) :
    (itemTokens items ++ (.bracketClose :: ts)).foldlM advance (stack, .listNext read) =
      ts.foldlM advance (deliver (.list (read.reverse ++ items)) stack) := by
  match items with
  | [] =>
    rw [itemTokens, List.append_nil]
    exact foldlM_cons_of rfl
  | j :: items =>
    rw [itemTokens, List.cons_append, foldlM_cons_of (n := (.list read :: stack, .value)) rfl,
      List.append_assoc, foldlM_tokens _ _ j]
    refine (foldlM_itemTokens ts stack (j :: read) items).trans ?_
    rw [List.reverse_cons, List.append_assoc, List.singleton_append]

theorem foldlM_memberTokens (ts : List Token) (stack : List Frame) (read members : List (Points × Json)) :
    (memberTokens members ++ (.braceClose :: ts)).foldlM advance (stack, .recordNext read) =
      ts.foldlM advance (deliver (.record (read.reverse ++ members)) stack) := by
  match members with
  | [] =>
    rw [memberTokens, List.append_nil]
    exact foldlM_cons_of rfl
  | (key, j) :: members =>
    rw [memberTokens, List.cons_append, foldlM_cons_of (n := (stack, .recordKey read)) rfl,
      List.cons_append, foldlM_cons_of (n := (stack, .colon read key)) rfl, List.cons_append,
      foldlM_cons_of (n := (.record read key :: stack, .value)) rfl, List.append_assoc, foldlM_tokens _ _ j]
    refine (foldlM_memberTokens ts stack ((key, j) :: read) members).trans ?_
    rw [List.reverse_cons, List.append_assoc, List.singleton_append]

end

theorem ofTokens?_tokens (j : Json) : ofTokens? j.tokens = some j := by
  have hread := foldlM_tokens [] [] j
  rw [List.append_nil] at hread
  rw [ofTokens?, hread]
  rfl

/-- A value reads back from its text, with any blanks before and behind it. -/
theorem read?_write (l : Layout) {j : Json} (hj : j.Proper) {before behind : List Char}
    (hbefore : ∀ c ∈ before, isBlank c = true) (hbehind : ∀ c ∈ behind, isBlank c = true) :
    read? (String.ofList before ++ write l j ++ String.ofList behind) = some j := by
  have hends : Numeral.Ends behind := by
    intro c hc
    have hblank := hbehind c (List.mem_of_head? hc)
    simp only [isBlank, Bool.or_eq_true, decide_eq_true_eq] at hblank
    obtain ((rfl | rfl) | rfl) | rfl := hblank <;> decide
  have hlexes : Lexes (before ++ (j.chars l 0 ++ behind)) j.tokens := by
    have hnil := Lexes.nil.blanks hbehind
    rw [List.append_nil] at hnil
    simpa using (lexes_chars l 0 j hj hends hnil).blanks hbefore
  rw [read?, write, String.toList_append, String.toList_append, String.toList_ofList, String.toList_ofList,
    String.toList_ofList, List.append_assoc, hlexes.all?, Option.bind_eq_bind, Option.bind_some,
    ofTokens?_tokens]

end SoundLink.Json
