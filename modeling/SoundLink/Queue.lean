import SoundLink.Fault

namespace SoundLink

variable {α : Type}

structure Queue (α : Type) where
  capacity : Nat
  /-- What waits, the oldest first. -/
  items : List α
  fits : items.length ≤ capacity

namespace Queue

def empty (capacity : Nat) : Queue α := ⟨capacity, [], Nat.zero_le _⟩

/-- The capacity from which on no address space holds a queue. -/
def maxCapacity : Nat := Nat.pow 2 57

def reserve (capacity : Nat) : Except Fault Unit :=
  if capacity < maxCapacity then .ok () else .error .overflow

def trySend (q : Queue α) (a : α) : Queue α × Bool :=
  if h : q.items.length < q.capacity then
    (⟨q.capacity, q.items ++ [a], by simpa using Nat.succ_le_of_lt h⟩, true)
  else (q, false)

def tryReceive (q : Queue α) : Queue α × Option α :=
  match h : q.items with
  | [] => (q, none)
  | a :: rest =>
    have hr : rest.length ≤ q.capacity := by
      have := q.fits
      simp only [h, List.length_cons] at this
      omega
    (⟨q.capacity, rest, hr⟩, some a)

/-- Stores an item and hands out the one that it displaces. -/
def push (q : Queue α) (a : α) : Queue α × Option α :=
  match q.trySend a with
  | (q, true) => (q, none)
  | (q, false) =>
    let (q, oldest) := q.tryReceive
    ((q.trySend a).1, oldest)

def drain (q : Queue α) : Queue α × List α := (empty q.capacity, q.items)

/-- A queue whose receiver is gone takes nothing. -/
def offer : Option (Queue α) → α → Option (Queue α) × Option α
  | none, _ => (none, none)
  | some q, a => let (q, displaced) := q.push a; (some q, displaced)

theorem items_tryReceive (q : Queue α) : q.tryReceive.1.items = q.items.tail := by
  unfold tryReceive
  split <;> simp_all

theorem tryReceive_eq_head? (q : Queue α) : q.tryReceive.2 = q.items.head? := by
  unfold tryReceive
  split <;> simp_all

theorem trySend_cases (q : Queue α) (a : α) :
    (q.items.length < q.capacity ∧ ∃ q', q.trySend a = (q', true) ∧ q'.items = q.items ++ [a] ∧
        q'.capacity = q.capacity) ∨
      (q.items.length = q.capacity ∧ q.trySend a = (q, false)) := by
  unfold trySend
  split
  · rename_i h
    exact .inl ⟨h, _, rfl, rfl, rfl⟩
  · rename_i h
    have := q.fits
    exact .inr ⟨by omega, rfl⟩

theorem tryReceive_cases (q : Queue α) :
    q.tryReceive = (q, none) ∧ q.items = [] ∨ ∃ q' a, q.tryReceive = (q', some a) ∧
      q.items = a :: q'.items ∧ q'.capacity = q.capacity := by
  unfold tryReceive
  split
  · rename_i hitems
    exact .inl ⟨rfl, hitems⟩
  · rename_i a rest hitems
    exact .inr ⟨_, a, rfl, hitems, rfl⟩

theorem items_push_of_lt {q : Queue α} {a : α} (h : q.items.length < q.capacity) :
    (q.push a).1.items = q.items ++ [a] := by
  simp [push, trySend, h]

theorem push_of_lt {q : Queue α} {a : α} (h : q.items.length < q.capacity) :
    ∃ q', q.push a = (q', none) ∧ q'.items = q.items ++ [a] ∧ q'.capacity = q.capacity := by
  refine ⟨(q.push a).1, ?_, items_push_of_lt h, ?_⟩ <;> simp [push, trySend, h]

theorem push_of_full {q : Queue α} {a b : α} {rest : List α} (hitems : q.items = b :: rest)
    (hfull : q.items.length = q.capacity) :
    ∃ q', q.push a = (q', some b) ∧ q'.items = rest ++ [a] ∧ q'.capacity = q.capacity := by
  rcases q.trySend_cases a with ⟨hroom, -⟩ | ⟨-, hsend⟩
  · omega
  · rcases q.tryReceive_cases with ⟨-, hnil⟩ | ⟨q', b', hreceive, hcons, hcapacity⟩
    · simp [hitems] at hnil
    · obtain ⟨rfl, rfl⟩ := List.cons.inj (hitems.symm.trans hcons)
      rcases q'.trySend_cases a with ⟨-, q'', hagain, hitems', hcapacity'⟩ | ⟨hfull', -⟩
      · exact ⟨q'', by simp [push, hsend, hreceive, hagain], hitems', hcapacity'.trans hcapacity⟩
      · simp only [hitems, List.length_cons] at hfull
        omega

end Queue

structure Backlog (α : Type) where
  blocks : Queue α
  dropped : Nat

namespace Backlog

def empty (capacity : Nat) : Backlog α := ⟨.empty capacity, 0⟩

def push (b : Backlog α) (block : α) : Backlog α :=
  let (blocks, displaced) := b.blocks.push block
  ⟨blocks, if displaced.isSome then b.dropped + 1 else b.dropped⟩

def tryReceive (b : Backlog α) : Backlog α × Option α :=
  let (blocks, block) := b.blocks.tryReceive
  ({ b with blocks }, block)

def drain (b : Backlog α) : Backlog α × List α :=
  let (blocks, taken) := b.blocks.drain
  ({ b with blocks }, taken)

end Backlog

/-- A notification that waits for whoever asks next; a newer one takes its place. -/
structure Signal (α : Type) where
  pending : Option α := none
  deriving DecidableEq

namespace Signal

def notify (_ : Signal α) (a : α) : Signal α := ⟨some a⟩

def clear (_ : Signal α) : Signal α := ⟨none⟩

def take (s : Signal α) : Signal α × Option α := (s.clear, s.pending)

end Signal

end SoundLink
