import SoundLink.Intake
import SoundLink.Proofs.Handover
import SoundLink.Proofs.Recovery

namespace SoundLink

namespace Demodulator

variable {d : Demodulator}

theorem process_nil (r : Registers) : d.process r [] = (r, []) := by rw [process]

theorem process_cons (r : Registers) (s : Sample) (xs : List Sample) :
    d.process r (s :: xs) =
      ((d.process (d.take r s).registers ((d.take r s).replay ++ xs)).1,
        (d.take r s).events ++ (d.process (d.take r s).registers ((d.take r s).replay ++ xs)).2) := by
  rw [process]

theorem process_append (r : Registers) (xs ys : List Sample) :
    d.process r (xs ++ ys) =
      ((d.process (d.process r xs).1 ys).1,
        (d.process r xs).2 ++ (d.process (d.process r xs).1 ys).2) := by
  -- what is taken again goes before the rest of the first block, so the induction is on the calls
  induction r, xs using process.induct d with
  | case1 r => simp [process_nil]
  | case2 r s xs t r' es hprocess ih =>
    rw [List.cons_append, process_cons, process_cons, ← List.append_assoc, ih, List.append_assoc]

theorem events_process_new (xs : List Sample) :
    (d.process .new xs).2 = events (d.run .initial xs).2 := by
  obtain ⟨τ, ⟨-, hevents⟩, -⟩ := (shows_new d).process xs
  exact hevents.symm

end Demodulator

namespace Intake

variable {d : Demodulator} {s : Intake} {blocks : List (List Sample)}

theorem survivors_taken (left : List (List Sample × Exit)) (block : List Sample) :
    survivors (left ++ [(block, .taken)]) = survivors left ++ [block] := by simp [survivors]

theorem survivors_displaced (left : List (List Sample × Exit)) (block : List Sample) :
    survivors (left ++ [(block, .displaced)]) = survivors left := by simp [survivors]

/-- Every block is on its way from the pushes to the exits, in order; what was displaced is counted, and
what was decoded is the stream of the blocks that the worker has done with. -/
structure Accounted (d : Demodulator) (blocks : List (List Sample)) (s : Intake) : Prop where
  room : 0 < s.backlog.blocks.capacity
  order : s.left.map Prod.fst ++ (s.backlog.blocks.items ++ (s.push.item.toList ++ s.coming)) = blocks
  dropped : s.backlog.dropped + s.push.uncounted = (s.left.map Prod.snd).count .displaced
  cleared : ∀ a displaced, s.push = .cleared a displaced →
    s.backlog.blocks.items.length < s.backlog.blocks.capacity
  decoded : ∃ done, survivors s.left = done ++ s.taken.toList ∧
    d.process .new done.flatten = (s.registers, s.events)

theorem accounted_start (d : Demodulator) {capacity : ℕ} (hroom : 0 < capacity)
    (blocks : List (List Sample)) : Accounted d blocks (start capacity blocks) where
  room := hroom
  order := rfl
  dropped := rfl
  cleared _ _ h := by cases h
  decoded := ⟨[], rfl, Demodulator.process_nil _⟩

theorem Accounted.device (h : Accounted d blocks s) : Accounted d blocks s.device := by
  obtain ⟨⟨queue, dropped⟩, push, coming, taken, registers, events, left⟩ := s
  obtain ⟨hroom, horder, hdropped, hcleared, hdecoded⟩ := h
  cases push with
  | idle =>
    cases coming with
    | nil => exact ⟨hroom, horder, hdropped, hcleared, hdecoded⟩
    | cons block coming =>
      rcases queue.trySend_cases block with ⟨-, q, hsend, hitems, hcapacity⟩ | ⟨-, hsend⟩
      · simp only [Intake.device, hsend]
        refine ⟨hcapacity ▸ hroom, ?_, hdropped, (fun _ _ h ↦ by cases h), hdecoded⟩
        rw [← horder, hitems, List.append_assoc]
        rfl
      · simp only [Intake.device, hsend]
        exact ⟨hroom, horder, hdropped, (fun _ _ h ↦ by cases h), hdecoded⟩
  | refused block =>
    rcases queue.tryReceive_cases with ⟨hreceive, hitems⟩ | ⟨q, oldest, hreceive, hitems, hcapacity⟩
    · simp only [Intake.device, Backlog.tryReceive, hreceive, Option.toList_none, List.map_nil,
        List.append_nil]
      refine ⟨hroom, horder, hdropped, ?_, hdecoded⟩
      rintro a displaced -
      rw [hitems]
      exact hroom
    · simp only [Intake.device, Backlog.tryReceive, hreceive, Option.toList_some, List.map_singleton]
      refine ⟨hcapacity ▸ hroom, ?_, ?_, ?_, ?_⟩
      · rw [← horder, hitems, List.map_append, List.append_assoc]
        rfl
      · rw [List.map_append, List.count_append, ← hdropped]
        rfl
      · rintro a displaced -
        have hfits := queue.fits
        rw [hitems, List.length_cons] at hfits
        exact hcapacity ▸ hfits
      · rwa [survivors_displaced]
  | cleared block displaced =>
    rcases queue.trySend_cases block with ⟨-, q, hsend, hitems, hcapacity⟩ | ⟨hfull, -⟩
    · simp only [Intake.device, hsend]
      refine ⟨hcapacity ▸ hroom, ?_, ?_, (fun _ _ h ↦ by cases h), hdecoded⟩
      · rw [← horder, hitems, List.append_assoc]
        rfl
      · rw [← hdropped]
        cases displaced <;> rfl
    · exact absurd (hcleared block displaced rfl) hfull.not_lt

theorem Accounted.worker (h : Accounted d blocks s) : Accounted d blocks (s.worker d) := by
  obtain ⟨⟨queue, dropped⟩, push, coming, taken, registers, events, left⟩ := s
  obtain ⟨hroom, horder, hdropped, hcleared, done, hdone, hprocess⟩ := h
  cases taken with
  | some block =>
    refine ⟨hroom, horder, hdropped, hcleared, done ++ [block], hdone.trans (List.append_nil _).symm, ?_⟩
    rw [List.flatten_append, Demodulator.process_append, hprocess, List.flatten_singleton]
    rfl
  | none =>
    rcases queue.tryReceive_cases with ⟨hreceive, -⟩ | ⟨q, oldest, hreceive, hitems, hcapacity⟩
    · simp only [Intake.worker, Backlog.tryReceive, hreceive]
      exact ⟨hroom, horder, hdropped, hcleared, done, hdone, hprocess⟩
    · simp only [Intake.worker, Backlog.tryReceive, hreceive]
      refine ⟨hcapacity ▸ hroom, ?_, ?_, ?_, done, ?_, hprocess⟩
      · rw [← horder, hitems, List.map_append, List.append_assoc]
        rfl
      · rw [List.map_append, List.count_append, ← hdropped]
        rfl
      · intro a displaced hpush
        have hless := hcleared a displaced hpush
        rw [hitems, List.length_cons] at hless
        exact hcapacity ▸ Nat.lt_of_succ_lt hless
      · rw [Option.toList_none, List.append_nil] at hdone
        rw [survivors_taken, hdone]
        rfl

theorem Accounted.run (h : Accounted d blocks s) (schedule : List Party) :
    Accounted d blocks (s.run d schedule) := by
  induction schedule generalizing s with
  | nil => exact h
  | cons party schedule ih =>
    cases party with
    | device => exact ih h.device
    | worker => exact ih h.worker

/-- The tries of a push that nobody interrupts are the push of a block. -/
theorem exists_run_device (d : Demodulator) (hpush : s.push = .idle) {block : List Sample}
    {coming : List (List Sample)} (hcoming : s.coming = block :: coming) :
    ∃ n, s.run d (List.replicate n .device) =
      { s with
        backlog := s.backlog.push block
        coming
        left := s.left ++ (s.backlog.blocks.push block).2.toList.map fun block ↦ (block, .displaced) } := by
  obtain ⟨⟨queue, dropped⟩, push, blocks, taken, registers, events, left⟩ := s
  obtain rfl : push = .idle := hpush
  obtain rfl : blocks = block :: coming := hcoming
  rcases queue.trySend_cases block with ⟨-, q, hsend, -⟩ | ⟨-, hsend⟩
  · refine ⟨1, ?_⟩
    simp [run, move, device, Backlog.push, Queue.push, hsend]
  · refine ⟨3, ?_⟩
    simp [run, move, device, Backlog.push, Backlog.tryReceive, Queue.push, hsend]

def handover (s : Intake) (ended : List (List Sample × Bool)) : Handover (List Sample) :=
  ⟨s.backlog, s.push, ended, s.left⟩

theorem exists_run_handover_device (s : Intake) (ended : List (List Sample × Bool)) :
    ∃ moves ended', (s.handover ended).run moves = s.device.handover ended' := by
  obtain ⟨⟨queue, dropped⟩, push, coming, taken, registers, events, left⟩ := s
  cases push with
  | idle =>
    cases coming with
    | nil => exact ⟨[], ended, rfl⟩
    | cons block coming =>
      rcases queue.trySend_cases block with ⟨-, q, hsend, -⟩ | ⟨-, hsend⟩
      · exact ⟨[.push block], ended ++ [(block, false)], by
          simp only [handover, Handover.run, List.foldl, Handover.move, Handover.begin, device, hsend]⟩
      · exact ⟨[.push block], ended, by
          simp only [handover, Handover.run, List.foldl, Handover.move, Handover.begin, device, hsend]⟩
  | refused block => exact ⟨[.retry], ended, rfl⟩
  | cleared block displaced => exact ⟨[.retry], ended ++ [(block, displaced)], rfl⟩

theorem exists_run_handover_worker (d : Demodulator) (s : Intake) (ended : List (List Sample × Bool)) :
    ∃ moves, (s.handover ended).run moves = (s.worker d).handover ended := by
  obtain ⟨⟨queue, dropped⟩, push, coming, taken, registers, events, left⟩ := s
  cases taken with
  | some block => exact ⟨[], rfl⟩
  | none =>
    rcases queue.tryReceive_cases with ⟨hreceive, -⟩ | ⟨q, oldest, hreceive, -⟩
    · exact ⟨[], by simp only [worker, Backlog.tryReceive, hreceive]; rfl⟩
    · exact ⟨[.take], by
        simp only [handover, Handover.run, List.foldl, Handover.move, Handover.take, worker,
          Backlog.tryReceive, hreceive, Option.toList_some, List.map_singleton]⟩

/-- The blocks of an intake are handed over, one consumer taking them. -/
theorem exists_run_handover (d : Demodulator) (s : Intake) (ended : List (List Sample × Bool))
    (schedule : List Party) :
    ∃ moves ended', (s.handover ended).run moves = (s.run d schedule).handover ended' := by
  induction schedule generalizing s ended with
  | nil => exact ⟨[], ended, rfl⟩
  | cons party schedule ih =>
    obtain ⟨moves, ended₁, hmoves⟩ : ∃ moves ended₁,
        (s.handover ended).run moves = (s.move d party).handover ended₁ := by
      cases party with
      | device => exact exists_run_handover_device s ended
      | worker =>
        obtain ⟨moves, hmoves⟩ := exists_run_handover_worker d s ended
        exact ⟨moves, ended, hmoves⟩
    obtain ⟨more, ended₂, hmore⟩ := ih (s.move d party) ended₁
    refine ⟨moves ++ more, ended₂, ?_⟩
    rw [Handover.run_append, hmoves]
    exact hmore

def steps : Push (List Sample) → ℕ
  | .idle => 0
  | .refused _ => 4
  | .cleared .. => 3

/-- A bound on the moves that are left, each of which leads on. -/
def work (s : Intake) : ℕ :=
  5 * s.coming.length + steps s.push + 2 * s.backlog.blocks.items.length + s.taken.toList.length

theorem work_device_lt (h : s.coming ≠ [] ∨ s.push ≠ .idle) : s.device.work < s.work := by
  obtain ⟨⟨queue, dropped⟩, push, coming, taken, registers, events, left⟩ := s
  cases push with
  | idle =>
    cases coming with
    | nil => simp at h
    | cons block coming =>
      rcases queue.trySend_cases block with ⟨-, q, hsend, hitems, -⟩ | ⟨-, hsend⟩
      · simp only [work, device, hsend, hitems, steps, List.length_append, List.length_cons, List.length_nil]
        omega
      · simp only [work, device, hsend, steps, List.length_cons]
        omega
  | refused block =>
    rcases queue.tryReceive_cases with ⟨hreceive, -⟩ | ⟨q, oldest, hreceive, hitems, -⟩
    · simp only [work, device, Backlog.tryReceive, hreceive, steps]
      omega
    · simp only [work, device, Backlog.tryReceive, hreceive, hitems, steps, List.length_cons]
      omega
  | cleared block displaced =>
    rcases queue.trySend_cases block with ⟨-, q, hsend, hitems, -⟩ | ⟨-, hsend⟩
    · simp only [work, device, hsend, hitems, steps, List.length_append, List.length_cons, List.length_nil]
      omega
    · simp only [work, device, hsend, steps]
      omega

theorem work_worker_lt (h : s.backlog.blocks.items ≠ [] ∨ s.taken ≠ none) :
    (s.worker d).work < s.work := by
  obtain ⟨⟨queue, dropped⟩, push, coming, taken, registers, events, left⟩ := s
  cases taken with
  | some block => simp [work, worker]
  | none =>
    rcases queue.tryReceive_cases with ⟨-, hitems⟩ | ⟨q, oldest, hreceive, hitems, -⟩
    · simp [hitems] at h
    · simp only [work, worker, Backlog.tryReceive, hreceive, hitems, List.length_cons, Option.toList_some,
        Option.toList_none, List.length_nil]
      omega

theorem exists_drained (d : Demodulator) (s : Intake) : ∃ schedule, (s.run d schedule).Drained := by
  induction hwork : s.work using Nat.strong_induction_on generalizing s with
  | _ n ih =>
    subst hwork
    by_cases hdevice : s.coming ≠ [] ∨ s.push ≠ .idle
    · obtain ⟨schedule, hdrained⟩ := ih _ (work_device_lt hdevice) s.device rfl
      exact ⟨.device :: schedule, hdrained⟩
    · by_cases hworker : s.backlog.blocks.items ≠ [] ∨ s.taken ≠ none
      · obtain ⟨schedule, hdrained⟩ := ih _ (work_worker_lt hworker) (s.worker d) rfl
        exact ⟨.worker :: schedule, hdrained⟩
      · rw [not_or, not_ne_iff, not_ne_iff] at hdevice hworker
        exact ⟨[], hdevice.1, hdevice.2, hworker.1, hworker.2⟩

theorem Drained.accounts (hdrained : s.Drained) (h : Accounted d blocks s) :
    s.left.map Prod.fst = blocks ∧ s.events = (d.process .new (survivors s.left).flatten).2 ∧
      s.backlog.dropped = (s.left.map Prod.snd).count .displaced := by
  obtain ⟨done, hdone, hprocess⟩ := h.decoded
  have horder := h.order
  have hdropped := h.dropped
  rw [hdrained.taken_eq, Option.toList_none, List.append_nil] at hdone
  rw [hdrained.items_eq, hdrained.push_eq, hdrained.coming_eq] at horder
  rw [hdrained.push_eq] at hdropped
  refine ⟨?_, ?_, hdropped⟩
  · rw [← horder]
    exact (List.append_nil _).symm
  · rw [hdone, hprocess]

theorem survivors_of_count_eq_zero {left : List (List Sample × Exit)}
    (h : (left.map Prod.snd).count .displaced = 0) : survivors left = left.map Prod.fst := by
  have hnone : Exit.displaced ∉ left.map Prod.snd := List.count_eq_zero.1 h
  rw [survivors, List.filter_eq_self.2]
  rintro ⟨block, exit⟩ hmem
  cases exit with
  | taken => rfl
  | displaced => exact absurd (List.mem_map.2 ⟨_, hmem, rfl⟩) hnone

theorem Drained.events_eq (hdrained : s.Drained) (h : Accounted d blocks s)
    (hnone : s.backlog.dropped = 0) : s.events = (d.process .new blocks.flatten).2 := by
  obtain ⟨horder, hevents, hdropped⟩ := hdrained.accounts h
  rw [hevents, survivors_of_count_eq_zero (hdropped.symm.trans hnone), horder]

/-- Blocks that are pushed into a queue with room for one at least, while a worker takes them out. Their
work can always be brought to its end. There, every block has left the queue, in the order of the pushes;
the events are those of one block, the stream of the blocks that were not displaced; and the others are
counted. If there are none, the events are the same for every run on the same stream that displaces
nothing, however it is cut and whoever moves when. -/
theorem events_of_drained (d : Demodulator) {k : ℕ} (hk : 0 < k) (blocks : List (List Sample)) :
    (∀ schedule, ∃ more, (after d k blocks (schedule ++ more)).Drained) ∧
    ∀ schedule, (after d k blocks schedule).Drained →
      (after d k blocks schedule).left.map Prod.fst = blocks ∧
      (after d k blocks schedule).events =
        (d.process .new (survivors (after d k blocks schedule).left).flatten).2 ∧
      (after d k blocks schedule).backlog.dropped =
        ((after d k blocks schedule).left.map Prod.snd).count .displaced ∧
      ((after d k blocks schedule).backlog.dropped = 0 →
        ∀ k' blocks' schedule', 0 < k' → blocks'.flatten = blocks.flatten →
          (after d k' blocks' schedule').Drained → (after d k' blocks' schedule').backlog.dropped = 0 →
            (after d k' blocks' schedule').events = (after d k blocks schedule).events) := by
  refine ⟨fun schedule ↦ ?_, fun schedule hdrained ↦ ?_⟩
  · obtain ⟨more, hmore⟩ := exists_drained d (after d k blocks schedule)
    refine ⟨more, ?_⟩
    rwa [after, run, List.foldl_append]
  · have haccounted := (accounted_start d hk blocks).run schedule
    obtain ⟨horder, hevents, hdropped⟩ := hdrained.accounts haccounted
    refine ⟨horder, hevents, hdropped, fun hnone k' blocks' schedule' hk' hstream hdrained' hnone' ↦ ?_⟩
    rw [hdrained'.events_eq ((accounted_start d hk' blocks').run schedule') hnone',
      hdrained.events_eq haccounted hnone, hstream]

theorem events_of_drained_terse :
    let d := Config.Phy.terse.demodulator
    let frame := Config.Phy.terse.modulator.frame (.ofSize 1 true 0) [7]
    let s := after d 1 [[5, 5, 5], frame.take 40, frame.drop 40, []]
      [.device, .device, .device, .device, .worker, .device, .worker, .device, .worker, .device, .device,
        .worker, .worker, .worker]
    survivors s.left = [frame.take 40, frame.drop 40, []] ∧ s.backlog.dropped = 1 ∧
      s.events = [.packet [7]] := by
  intro d frame s
  have hdrained : s.Drained := by constructor <;> decide +kernel
  obtain ⟨-, hevents, -⟩ := (events_of_drained d (k := 1) (by decide) _).2 _ hdrained
  have hsurvivors : survivors s.left = [frame.take 40, frame.drop 40, []] := by decide +kernel
  refine ⟨hsurvivors, by decide +kernel, ?_⟩
  rw [hevents, Demodulator.events_process_new, hsurvivors]
  decide +kernel

end Intake

end SoundLink
