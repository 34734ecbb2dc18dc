import SoundLink.Handover
import Mathlib.Data.List.DropRight
import Mathlib.Tactic

namespace SoundLink

variable {α : Type}

namespace Push

def item : Push α → Option α
  | .idle => none
  | .refused a => some a
  | .cleared a _ => some a

def uncounted : Push α → ℕ
  | .cleared _ true => 1
  | _ => 0

end Push

namespace Handover

variable {s t : Handover α}

/-- What the queue of a push that has made room lacks. -/
def Vacant (s : Handover α) : Prop :=
  ∀ a displaced, s.push = .cleared a displaced → s.waiting.length < s.backlog.blocks.capacity

inductive Does (s : Handover α) : Handover α → Prop
  | nothing : Does s s
  | refused {a : α} (hpush : s.push = .idle) (hfull : s.waiting.length = s.backlog.blocks.capacity) :
      Does s { s with push := .refused a }
  | stored {q : Queue α} {a : α} {answer : Bool} (hitems : q.items = s.waiting ++ [a])
      (hcapacity : q.capacity = s.backlog.blocks.capacity)
      (hpush : s.push = .idle ∧ answer = false ∨ s.push = .cleared a answer) :
      Does s ⟨⟨q, s.backlog.dropped + answer.toNat⟩, .idle, s.ended ++ [(a, answer)], s.left⟩
  | emptied {a : α} (hpush : s.push = .refused a) (hitems : s.waiting = []) :
      Does s { s with push := .cleared a false }
  | displaced {q : Queue α} {a b : α} (hpush : s.push = .refused a) (hitems : s.waiting = b :: q.items)
      (hcapacity : q.capacity = s.backlog.blocks.capacity) :
      Does s ⟨⟨q, s.backlog.dropped⟩, .cleared a true, s.ended, s.left ++ [(b, .displaced)]⟩
  | taken {q : Queue α} {b : α} (hitems : s.waiting = b :: q.items)
      (hcapacity : q.capacity = s.backlog.blocks.capacity) :
      Does s ⟨⟨q, s.backlog.dropped⟩, s.push, s.ended, s.left ++ [(b, .taken)]⟩

theorem does_begin (s : Handover α) (a : α) : s.Does (s.begin a) := by
  obtain ⟨⟨queue, dropped⟩, push, ended, left⟩ := s
  cases push with
  | idle =>
    rcases queue.trySend_cases a with ⟨-, q, hsend, hitems, hcapacity⟩ | ⟨hfull, hsend⟩
    · simp only [begin, hsend]
      exact .stored hitems hcapacity (.inl ⟨rfl, rfl⟩)
    · simp only [begin, hsend]
      exact .refused rfl hfull
  | refused => exact .nothing
  | cleared => exact .nothing

theorem does_retry (h : s.Vacant) : s.Does s.retry := by
  obtain ⟨⟨queue, dropped⟩, push, ended, left⟩ := s
  cases push with
  | idle => exact .nothing
  | refused a =>
    rcases queue.tryReceive_cases with ⟨hreceive, hitems⟩ | ⟨q, b, hreceive, hitems, hcapacity⟩
    · simp only [retry, Backlog.tryReceive, hreceive, Option.toList_none, List.map_nil, List.append_nil]
      exact .emptied rfl hitems
    · simp only [retry, Backlog.tryReceive, hreceive, Option.toList_some, List.map_singleton]
      exact .displaced rfl hitems hcapacity
  | cleared a displaced =>
    rcases queue.trySend_cases a with ⟨-, q, hsend, hitems, hcapacity⟩ | ⟨hfull, -⟩
    · have hcounted : (if displaced then dropped + 1 else dropped) = dropped + displaced.toNat := by
        cases displaced <;> rfl
      simp only [retry, hsend, hcounted]
      exact .stored hitems hcapacity (.inr rfl)
    · exact absurd (h a displaced rfl) hfull.not_lt

theorem does_take (s : Handover α) : s.Does s.take := by
  obtain ⟨⟨queue, dropped⟩, push, ended, left⟩ := s
  rcases queue.tryReceive_cases with ⟨hreceive, -⟩ | ⟨q, b, hreceive, hitems, hcapacity⟩
  · simp only [take, Backlog.tryReceive, hreceive, Option.toList_none, List.map_nil, List.append_nil]
    exact .nothing
  · simp only [take, Backlog.tryReceive, hreceive, Option.toList_some, List.map_singleton]
    exact .taken hitems hcapacity

theorem order_of_leaves {q : Queue α} {b : α} (hitems : s.waiting = b :: q.items) (exit : Exit) :
    (s.left ++ [(b, exit)]).map Prod.fst ++ q.items = s.left.map Prod.fst ++ s.waiting := by
  rw [hitems, List.map_append, List.append_assoc]
  rfl

theorem does_move (h : s.Vacant) (m : Move α) : s.Does (s.move m) := by
  cases m with
  | push a => exact does_begin s a
  | retry => exact does_retry h
  | take => exact does_take s

/-- The books of a queue with room for `k` items. They balance at any time. -/
structure Balances (k : ℕ) (s : Handover α) : Prop where
  capacity_eq : s.backlog.blocks.capacity = k
  vacant : s.Vacant
  order : s.left.map Prod.fst ++ s.waiting = s.pushed
  displaced : (s.left.map Prod.snd).count .displaced = s.reported + s.push.uncounted
  dropped : s.backlog.dropped = s.reported

theorem balances_start (k : ℕ) : (start k : Handover α).Balances k where
  capacity_eq := rfl
  vacant _ _ h := by cases h
  order := rfl
  displaced := rfl
  dropped := rfl

variable {k : ℕ}

theorem Balances.does (h : s.Balances k) (hk : 0 < k) (hdoes : s.Does t) : t.Balances k := by
  obtain ⟨hcapacity, hvacant, horder, hdisplaced, hdropped⟩ := h
  cases hdoes with
  | nothing => exact ⟨hcapacity, hvacant, horder, hdisplaced, hdropped⟩
  | refused hpush =>
    rw [hpush] at hdisplaced
    exact ⟨hcapacity, (fun _ _ h ↦ by cases h), horder, hdisplaced, hdropped⟩
  | @stored q a answer hitems hq hpush =>
    have huncounted : s.push.uncounted = answer.toNat := by
      rcases hpush with ⟨hpush, rfl⟩ | hpush
      · rw [hpush]
        rfl
      · rw [hpush]
        cases answer <;> rfl
    have hreported (b : Bool) : [b].count true = b.toNat := by cases b <;> rfl
    refine ⟨hq.trans hcapacity, (fun _ _ h ↦ by cases h), ?_, ?_, ?_⟩
    · rw [pushed, List.map_append, ← pushed, ← horder, List.append_assoc]
      exact congrArg _ hitems
    · rw [reported, List.map_append, List.count_append, ← reported, List.map_singleton, hreported,
        hdisplaced, huncounted]
      rfl
    · rw [reported, List.map_append, List.count_append, ← reported, List.map_singleton, hreported,
        hdropped]
  | emptied hpush hitems =>
    rw [hpush] at hdisplaced
    refine ⟨hcapacity, ?_, horder, hdisplaced, hdropped⟩
    rintro a displaced -
    rw [waiting] at hitems ⊢
    rw [hitems, hcapacity]
    exact hk
  | @displaced q a b hpush hitems hq =>
    rw [hpush] at hdisplaced
    refine ⟨hq.trans hcapacity, ?_, ?_, ?_, hdropped⟩
    · rintro a displaced -
      have hfits := s.backlog.blocks.fits
      rw [← waiting, hitems, List.length_cons] at hfits
      exact hq ▸ hfits
    · exact (order_of_leaves hitems _).trans horder
    · rw [List.map_append, List.count_append, hdisplaced]
      rfl
  | @taken q b hitems hq =>
    refine ⟨hq.trans hcapacity, ?_, ?_, ?_, hdropped⟩
    · intro a displaced hpush
      have hless := hvacant a displaced hpush
      rw [hitems, List.length_cons] at hless
      exact hq ▸ Nat.lt_of_succ_lt hless
    · exact (order_of_leaves hitems _).trans horder
    · rw [List.map_append, List.count_append, hdisplaced]
      rfl

theorem run_append (s : Handover α) (moves more : List (Move α)) :
    s.run (moves ++ more) = (s.run moves).run more := List.foldl_append

theorem Balances.run (h : s.Balances k) (hk : 0 < k) (moves : List (Move α)) : (s.run moves).Balances k := by
  induction moves generalizing s with
  | nil => exact h
  | cons m moves ih => exact ih (h.does hk (does_move h.vacant m))

theorem Balances.ends (h : s.Balances k) (m : Move α) :
    (s.move m).ended = s.ended ∨ ∃ a answer, (s.move m).ended = s.ended ++ [(a, answer)] ∧
      (s.move m).waiting = s.waiting ++ [a] ∧ (s.move m).left = s.left := by
  have hdoes := does_move h.vacant m
  generalize s.move m = t at hdoes ⊢
  cases hdoes with
  | stored hitems => exact .inr ⟨_, _, rfl, hitems, rfl⟩
  | nothing => exact .inl rfl
  | refused => exact .inl rfl
  | emptied => exact .inl rfl
  | displaced => exact .inl rfl
  | taken => exact .inl rfl

def alone (a : α) : List (Move α) := [.push a, .retry, .retry]

theorem run_alone (hpush : s.push = .idle) (a : α) :
    s.run (alone a) =
      { s with
        backlog := s.backlog.push a
        ended := s.ended ++ [(a, (s.backlog.blocks.push a).2.isSome)]
        left := s.left ++ (s.backlog.blocks.push a).2.toList.map fun b ↦ (b, .displaced) } := by
  obtain ⟨⟨queue, dropped⟩, push, ended, left⟩ := s
  obtain rfl : push = .idle := hpush
  rcases queue.trySend_cases a with ⟨-, q, hsend, -⟩ | ⟨-, hsend⟩
  · simp [run, alone, move, begin, retry, Backlog.push, Queue.push, hsend]
  · simp [run, alone, move, begin, retry, Backlog.push, Backlog.tryReceive, Queue.push, hsend]

theorem Balances.waiting_eq (h : s.Balances k) : s.waiting = s.pushed.rtake s.waiting.length := by
  rw [← h.order, List.rtake, List.length_append, Nat.add_sub_cancel, List.drop_left]

theorem Balances.length_waiting_le (h : s.Balances k) : s.waiting.length ≤ k :=
  h.capacity_eq ▸ s.backlog.blocks.fits

/-- A push that finds room, and no one in its way, displaces nothing. -/
theorem Balances.alone_of_lt (h : s.Balances k) (hpush : s.push = .idle) (hroom : s.waiting.length < k)
    (a : α) : (s.run (alone a)).left = s.left ∧ (s.run (alone a)).ended = s.ended ++ [(a, false)] := by
  rw [← h.capacity_eq] at hroom
  obtain ⟨q, hq, -⟩ := Queue.push_of_lt (a := a) hroom
  rw [run_alone hpush, hq]
  exact ⟨List.append_nil _, rfl⟩

/-- A push that finds none displaces the oldest item, and leaves as many of the newest as there is room. -/
theorem Balances.alone_of_full (h : s.Balances k) (hk : 0 < k) (hpush : s.push = .idle)
    (hfull : s.waiting.length = k) (a : α) :
    ∃ b, s.waiting.head? = some b ∧ (s.run (alone a)).left = s.left ++ [(b, .displaced)] ∧
      (s.run (alone a)).ended = s.ended ++ [(a, true)] ∧
      (s.run (alone a)).waiting = (s.run (alone a)).pushed.rtake k := by
  obtain ⟨b, rest, hwaiting⟩ := List.exists_cons_of_length_pos (hfull.symm ▸ hk : 0 < s.waiting.length)
  obtain ⟨q, hq, hitems, -⟩ := Queue.push_of_full (a := a) hwaiting (hfull.trans h.capacity_eq.symm)
  have hnewest := (h.run hk (alone a)).waiting_eq
  have hrun : s.run (alone a) = ⟨⟨q, (s.backlog.push a).dropped⟩, .idle, s.ended ++ [(a, true)],
      s.left ++ [(b, .displaced)]⟩ := by
    rw [run_alone hpush, Backlog.push, hq, hpush]
    rfl
  have hlength : (s.run (alone a)).waiting.length = k := by
    rw [hrun, waiting, hitems, List.length_append, ← hfull, hwaiting]
    rfl
  rw [hlength] at hnewest
  exact ⟨b, by rw [hwaiting]; rfl, by rw [hrun], by rw [hrun], hnewest⟩

/-- A queue with room for one item at least, whoever takes from it and when. What has been pushed has left
the queue or waits in it: in the order of the pushes, first all that has left, then all that waits. A push
ends with its own item behind all others. As many pushes answer that they displaced an item as items were
displaced, and so many are counted; the answer of a push that has just displaced one is still to come. A
push that no one interrupts displaces an item only if the queue is full: the oldest, so that the newest
stay. -/
theorem loses_what_it_reports {k : ℕ} (hk : 0 < k) (moves : List (Move α)) :
    let s := (start k).run moves
    s.left.map Prod.fst ++ s.waiting = s.pushed ∧
    (s.leftBy .taken ++ s.waiting).Sublist s.pushed ∧
    (∀ m, (s.move m).ended = s.ended ∨ ∃ a answer, (s.move m).ended = s.ended ++ [(a, answer)] ∧
      (s.move m).waiting = s.waiting ++ [a] ∧ (s.move m).left = s.left) ∧
    (s.leftBy .displaced).length = s.reported + s.push.uncounted ∧ s.backlog.dropped = s.reported ∧
    (s.push = .idle → ∀ a,
      (s.waiting.length < k → (s.run (alone a)).left = s.left ∧
        (s.run (alone a)).ended = s.ended ++ [(a, false)]) ∧
      (s.waiting.length = k → ∃ b, s.waiting.head? = some b ∧
        (s.run (alone a)).left = s.left ++ [(b, .displaced)] ∧
        (s.run (alone a)).ended = s.ended ++ [(a, true)] ∧
        (s.run (alone a)).waiting = (s.run (alone a)).pushed.rtake k) ∧
      s.waiting.length ≤ k) := by
  intro s
  have h : s.Balances k := (balances_start k).run hk moves
  refine ⟨h.order, ?_, h.ends, ?_, h.dropped, fun hpush a ↦
    ⟨(h.alone_of_lt hpush · a), (h.alone_of_full hk hpush · a), h.length_waiting_le⟩⟩
  · rw [← h.order]
    exact (List.filter_sublist.map _).append_right _
  · rw [← h.displaced, leftBy, List.length_map, List.count, List.countP_map, List.countP_eq_length_filter]
    rfl

theorem loses_what_it_reports_two : 0 < 2 ∧
    let s := (start 2).run [.push 1, .push 2, .push 3, .retry, .take, .retry, .push 4, .push 5, .take, .take,
      .retry, .take, .retry, .take]
    s.left.map Prod.fst ++ s.waiting = s.pushed ∧ s.pushed = [1, 2, 3, 4, 5] ∧
      s.leftBy .displaced = [1] ∧ s.backlog.dropped = 1 := by
  obtain ⟨horder, -, -, hdisplaced, hdropped, -⟩ := loses_what_it_reports (k := 2) (by decide)
    [.push 1, .push 2, .push 3, .retry, .take, .retry, .push 4, .push 5, .take, .take,
      .retry, .take, .retry, .take]
  exact ⟨by decide, horder, by decide, by decide, hdropped.trans (by decide)⟩

end Handover

end SoundLink
