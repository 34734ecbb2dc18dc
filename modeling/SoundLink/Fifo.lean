namespace SoundLink

variable {α : Type}

/-- A first-in first-out store: items leave at `front` and enter at `back`, which is reversed. -/
structure Fifo (α : Type) where
  front : List α
  back : List α
  size : Nat
  size_eq : size = front.length + back.length

namespace Fifo

def empty : Fifo α := ⟨[], [], 0, rfl⟩

def toList (q : Fifo α) : List α := q.front ++ q.back.reverse

def push (q : Fifo α) (a : α) : Fifo α :=
  ⟨q.front, a :: q.back, q.size + 1, by simp only [List.length_cons, q.size_eq]; omega⟩

def pop? (q : Fifo α) : Option (α × Fifo α) :=
  match hf : q.front, hb : q.back.reverse with
  | a :: front, _ => some (a, ⟨front, q.back, q.size - 1, by
      have := q.size_eq
      simp only [hf, List.length_cons] at this
      omega⟩)
  | [], a :: front => some (a, ⟨front, [], q.size - 1, by
      have := q.size_eq
      have hl := congrArg List.length hb
      simp only [List.length_reverse, List.length_cons] at hl
      simp only [hf, List.length_nil] at this ⊢
      omega⟩)
  | [], [] => none

theorem length_toList (q : Fifo α) : q.toList.length = q.size := by
  simp [toList, q.size_eq]

theorem toList_push (q : Fifo α) (a : α) : (q.push a).toList = q.toList ++ [a] := by
  simp [toList, push]

theorem toList_of_pop? {q r : Fifo α} {a : α} (h : q.pop? = some (a, r)) : q.toList = a :: r.toList := by
  unfold pop? at h
  split at h
  · rename_i hf
    cases h
    simp [toList, hf]
  · rename_i hf hb
    cases h
    simp [toList, hf, hb]
  · cases h

theorem exists_pop? {q : Fifo α} {a : α} {as : List α} (h : q.toList = a :: as) :
    ∃ r, q.pop? = some (a, r) ∧ r.toList = as := by
  cases hpop : q.pop? with
  | none =>
    unfold pop? at hpop
    split at hpop
    · cases hpop
    · cases hpop
    · rename_i hf hb
      simp [toList, hf, hb] at h
  | some p =>
    obtain ⟨b, r⟩ := p
    have hlist := (toList_of_pop? hpop).symm.trans h
    rw [List.cons.injEq] at hlist
    obtain ⟨rfl, rfl⟩ := hlist
    exact ⟨r, rfl, rfl⟩

end Fifo

end SoundLink
