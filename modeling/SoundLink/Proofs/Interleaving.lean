import SoundLink.Proofs.RetryBudget

namespace SoundLink

namespace Transmission

def next (t : Transmission) (o : Occurrence) : Transmission :=
  match t.waiting, o with
  | .free, .free => { t with waiting := .played }
  | .played, .played => { t with waiting := .acknowledgement }
  | .played, .disturbed _ | .acknowledgement, .disturbed _ => t.retry .backoff
  | .acknowledgement, .expired => { t.retry .free with timeouts := t.timeouts + 1 }
  | .backoff, .rested _ => { t with waiting := .free }
  | _, _ => t

/-- Played at the try after `k` retries, and neither heard nor given up since. -/
def Undecided (k : ℕ) (t : Transmission) : Prop :=
  t.waiting = .acknowledgement ∧ t.retries = k ∨ t.waiting = .backoff ∧ t.retries = k + 1

theorem proceed_going {closed : Bool} {t t' : Transmission}
    (h : (t.proceed closed).1 = .going t') : t' = t := by
  obtain ⟨e, he⟩ | hgoing := proceed_cases closed t
  · cases he.symm.trans h
  · cases hgoing.symm.trans h
    rfl

theorem step_going {closed : Bool} {t t' : Transmission} {o : Occurrence}
    (h : (t.step closed o).1 = .going t') : t' = t.next o := by
  obtain ⟨destination, index, maxRetries, waiting, retries, timeouts⟩ := t
  cases waiting with
  | free =>
    cases o with
    | busy => exact proceed_going h
    | free =>
      rw [step_free] at h
      exact proceed_going h
    | _ => cases h; rfl
  | played =>
    cases o with
    | played | disturbed => exact proceed_going h
    | cutOff => cases h
    | _ => cases h; rfl
  | acknowledgement =>
    cases o with
    | acknowledged i =>
      unfold step at h
      dsimp only at h
      split_ifs at h
      exact proceed_going h
    | disturbed | expired => exact proceed_going h
    | _ => cases h; rfl
  | backoff =>
    cases o with
    | rested => exact proceed_going h
    | _ => cases h; rfl

theorem step_cutOff {t : Transmission} (h : t.waiting = .played) (closed : Bool) :
    (t.step closed .cutOff).1 = .ended (.error (.phy .closed)) := by
  unfold step
  rw [h]

theorem next_acknowledged (t : Transmission) (i : UInt8) : t.next (.acknowledged i) = t := by
  unfold next
  cases t.waiting <;> rfl

end Transmission

namespace Session

variable {σ : Type} {m : Medium σ}

namespace Run

variable {r : Run σ} {x : Dispatch} {k : ℕ}

def dispatch (r : Run σ) (handed : List (List UInt8)) : Dispatch :=
  ⟨r.session.station, r.bytes, r.standing, handed⟩

def Reached (r : Run σ) (x : Dispatch) : Prop := ∃ moves handed, x.run moves = r.dispatch handed

theorem Reached.of_move (h : r.Reached x) {r' : Run σ} (move : Move)
    (hmove : ∀ handed, ∃ handed', (r.dispatch handed).move move = r'.dispatch handed') :
    r'.Reached x := by
  obtain ⟨moves, handed, hrun⟩ := h
  obtain ⟨handed', hmove⟩ := hmove handed
  exact ⟨moves ++ [move], handed', by rw [Dispatch.run_concat, hrun, hmove]⟩

theorem dispatch_occur (r : Run σ) (o : Occurrence) (handed : List (List UInt8)) :
    ∃ handed', (r.dispatch handed).occur o = (r.occur o).dispatch handed' := by
  unfold Run.occur
  cases hstanding : r.standing with
  | ended result =>
    rw [Dispatch.occur_of_ended (x := r.dispatch handed) hstanding]
    exact ⟨handed, rfl⟩
  | going t =>
    rw [Dispatch.occur_of_going (x := r.dispatch handed) hstanding]
    exact ⟨_, rfl⟩

theorem Reached.occur (h : r.Reached x) {o : Occurrence} (ho : ∀ i, o ≠ .acknowledged i) :
    (r.occur o).Reached x := by
  apply h.of_move (.meet o)
  intro handed
  cases o with
  | acknowledged i => exact absurd rfl (ho i)
  | _ => exact r.dispatch_occur _ handed

theorem Reached.collect (h : r.Reached x) : r.collect.Reached x := by
  apply h.of_move .collect
  intro handed
  change ∃ handed', (r.dispatch handed).collect = _
  obtain ⟨session, header, bytes, standing⟩ := r
  unfold Run.collect Dispatch.collect Run.dispatch
  cases standing with
  | ended result => exact ⟨handed, rfl⟩
  | going t =>
    cases session.station.acks.pending with
    | none => exact ⟨handed, rfl⟩
    | some i =>
      dsimp only
      split_ifs
      · let cleared : Run σ :=
          ⟨{ session with station.acks := session.station.acks.clear }, header, bytes, .going t⟩
        exact cleared.dispatch_occur _ handed
      · exact ⟨handed, rfl⟩

theorem Reached.handle (h : r.Reached x) (packet : List UInt8) :
    ({ r with session.station := (r.session.station.handle packet).1 } : Run σ).Reached x :=
  h.of_move (.packet packet) fun handed ↦ ⟨handed, rfl⟩

theorem Reached.handleAll (h : r.Reached x) (packets : List (List UInt8)) :
    ({ r with session.station := (r.session.station.handleAll packets).1 } : Run σ).Reached x := by
  induction packets using List.reverseRecOn with
  | nil => exact h
  | append_singleton packets packet ih =>
    have hlast : (r.session.station.handleAll (packets ++ [packet])).1 =
        ((r.session.station.handleAll packets).1.handle packet).1 := by
      rw [Station.handleAll, List.foldl_concat]
      rfl
    rw [hlast]
    exact ih.handle packet

theorem Reached.hear (h : r.Reached x) (packet : List UInt8) :
    ({ r with session := r.session.hear m packet } : Run σ).Reached x := by
  have hhandled := h.handle packet
  unfold Session.hear
  split
  · rename_i station hstation
    rw [hstation] at hhandled
    exact hhandled
  · rename_i station ack hstation
    rw [hstation] at hhandled
    split_ifs
    · exact hhandled
    · exact hhandled.handleAll (m.answer r.session.medium ack.bytes).2

theorem Reached.close (h : r.Reached x) :
    ({ r with session.station := r.session.station.close } : Run σ).Reached x :=
  h.of_move .closing fun handed ↦ ⟨handed, rfl⟩

theorem Reached.meet (h : r.Reached x) (incident : Incident) : (r.meet m incident).Reached x := by
  cases incident with
  | packet bytes =>
    unfold Run.meet
    split_ifs
    · exact h
    · exact (h.hear bytes).collect
  | disturbance e => exact h.occur fun _ ↦ nofun
  | closing => exact h.close

theorem Reached.meetAll (h : r.Reached x) (incidents : List Incident) :
    (incidents.foldl (Run.meet m) r).Reached x := by
  induction incidents generalizing r with
  | nil => exact h
  | cons incident incidents ih => exact ih (h.meet incident)

theorem Reached.attempt (h : r.Reached x) : (r.attempt m).Reached x := by
  have hfree : (r.occur .free).Reached x := h.occur fun _ ↦ nofun
  obtain ⟨result, -, hattempt⟩ | ⟨t, -, hattempt⟩ := r.attempt_cases m
  · rw [hattempt]
    exact hfree
  · have hnext : ((r.occur .free).handOver m).Reached x := hfree
    split at hattempt
    · rw [hattempt]
      exact hnext.close.occur fun _ ↦ nofun
    · rename_i e hpassage
      have hdisturbed := hnext.occur (o := .disturbed e) fun _ ↦ nofun
      rw [hattempt]
      exact hdisturbed.occur fun _ ↦ nofun
    · rename_i incidents hpassage
      have hplayed := (hnext.occur (o := .played) fun _ ↦ nofun).collect.meetAll (m := m) incidents
      have hexpired := hplayed.occur (o := .expired) fun _ ↦ nofun
      rw [hattempt]
      exact hexpired.occur fun _ ↦ nofun

theorem Reached.repeatedly (h : r.Reached x) (n : ℕ) : (r.repeatedly m n).Reached x := by
  induction n generalizing r with
  | zero => exact h
  | succ n ih =>
    rw [Run.repeatedly]
    split
    · exact h
    · exact ih h.attempt

def Goes (r : Run σ) (P : Transmission → Prop) : Prop := ∀ t, r.standing = .going t → P t

variable {P Q : Transmission → Prop} {k : ℕ}

theorem occur_standing {t : Transmission} (hgoing : r.standing = .going t) (o : Occurrence) :
    (r.occur o).standing = (t.step r.session.station.closed o).1 := by
  unfold Run.occur
  rw [hgoing]

theorem Goes.occur (h : r.Goes P) {o : Occurrence} (hnext : ∀ t, P t → Q (t.next o)) :
    (r.occur o).Goes Q := by
  intro t' hgoing
  cases hstanding : r.standing with
  | ended result =>
    unfold Run.occur at hgoing
    rw [hstanding] at hgoing
    cases hstanding.symm.trans hgoing
  | going t =>
    rw [occur_standing hstanding] at hgoing
    rw [Transmission.step_going hgoing]
    exact hnext t (h t hstanding)

theorem Goes.collect (h : r.Goes P) : r.collect.Goes P := by
  unfold Run.collect
  split
  · split_ifs
    · have hcleared : ({ r with session.station.acks := r.session.station.acks.clear } : Run σ).Goes
          P := h
      refine hcleared.occur ?_
      intro t ht
      rwa [Transmission.next_acknowledged]
    · exact h
  · exact h

theorem Goes.meetAll (h : r.Goes (Transmission.Undecided k)) (incidents : List Incident) :
    (incidents.foldl (Run.meet m) r).Goes (Transmission.Undecided k) := by
  induction incidents generalizing r with
  | nil => exact h
  | cons incident incidents ih =>
    refine ih ?_
    cases incident with
    | packet bytes =>
      unfold Run.meet
      split_ifs
      · exact h
      · exact Goes.collect (r := { r with session := r.session.hear m bytes }) h
    | disturbance e =>
      refine h.occur ?_
      rintro t (⟨hwaiting, hretries⟩ | ⟨hwaiting, hretries⟩)
      · exact .inr (by simp [Transmission.next, Transmission.retry, hwaiting, hretries])
      · exact .inr (by simp [Transmission.next, hwaiting, hretries])
    | closing => exact h

theorem Goes.rest (h : r.Goes fun t ↦ t.retries = k ∧ (t.waiting = .free ∨ t.waiting = .backoff)) :
    r.rest.Goes fun t ↦ t.waiting = .free ∧ t.retries = k := by
  refine h.occur ?_
  rintro t ⟨hretries, hwaiting | hwaiting⟩
  · simp [Transmission.next, hwaiting, hretries]
  · simp [Transmission.next, hwaiting, hretries]

theorem Goes.attempt (h : r.Goes fun t ↦ t.waiting = .free ∧ t.retries = k) :
    (r.attempt m).Goes fun t ↦ t.waiting = .free ∧ t.retries = k + 1 := by
  have hfree : (r.occur .free).Goes fun t ↦ t.waiting = .played ∧ t.retries = k := by
    refine h.occur ?_
    rintro t ⟨hwaiting, hretries⟩
    simp [Transmission.next, hwaiting, hretries]
  obtain ⟨result, hended, hattempt⟩ | ⟨t, hgoing, hattempt⟩ := r.attempt_cases m
  · rw [hattempt]
    intro t hgoing
    cases hended.symm.trans hgoing
  · have hnext : ((r.occur .free).handOver m).Goes fun t ↦ t.waiting = .played ∧ t.retries = k :=
      hfree
    split at hattempt
    · rw [hattempt]
      intro t' hgoing'
      have hended := occur_standing
        (r := { (r.occur .free).handOver m with
          session.station := (r.occur .free).session.station.close }) hgoing .cutOff
      rw [Transmission.step_cutOff (hfree t hgoing).1] at hended
      cases hended.symm.trans hgoing'
    · rw [hattempt]
      refine Goes.rest (hnext.occur ?_)
      rintro t ⟨hwaiting, hretries⟩
      simp [Transmission.next, Transmission.retry, hwaiting, hretries]
    · rename_i incidents hpassage
      rw [hattempt]
      have hplayed : (((r.occur .free).handOver m).occur .played).Goes (Transmission.Undecided k) := by
        refine hnext.occur ?_
        rintro t ⟨hwaiting, hretries⟩
        exact .inl (by simp [Transmission.next, hwaiting, hretries])
      refine Goes.rest ((hplayed.collect.meetAll incidents).occur ?_)
      rintro t (⟨hwaiting, hretries⟩ | ⟨hwaiting, hretries⟩)
      · simp [Transmission.next, Transmission.retry, hwaiting, hretries]
      · simp [Transmission.next, hwaiting, hretries]

theorem Goes.repeatedly (h : r.Goes fun t ↦ t.waiting = .free ∧ t.retries = k) (n : ℕ) :
    (r.repeatedly m n).Goes fun t ↦ t.waiting = .free ∧ t.retries = k + n := by
  induction n generalizing r k with
  | zero => exact h
  | succ n ih =>
    rw [Run.repeatedly]
    split
    · rename_i hended
      intro t hgoing
      cases hended.symm.trans hgoing
    · have hattempt := ih (h.attempt (m := m))
      rwa [Nat.add_assoc, Nat.add_comm 1 n] at hattempt

end Run

/-- A frame sent over a medium is a dispatch that comes to an end. -/
theorem transmit_run (m : Medium σ) (w : Session σ) (h : MacHeader) (part : List UInt8) :
    ∃ moves, ((Dispatch.start w.station h part).run moves).standing =
        .ended (w.transmit m h part).2 ∧
      (w.transmit m h part).1.station =
        { ((Dispatch.start w.station h part).run moves).station with awaiting := none } := by
  let last := (w.begin h part).repeatedly m (w.station.maxRetries + 1)
  have hbegin : (w.begin h part).Reached (.start w.station h part) := ⟨[], [], rfl⟩
  obtain ⟨moves, handed, hmoves⟩ : last.Reached (.start w.station h part) := hbegin.repeatedly _
  have hfirst : (w.begin h part).Goes fun t ↦ t.waiting = .free ∧ t.retries = 0 := by
    intro t hgoing
    rw [Transmission.proceed_going hgoing]
    exact ⟨rfl, rfl⟩
  have hended : ∃ result, last.standing = .ended result := by
    cases hstanding : last.standing with
    | ended result => exact ⟨result, rfl⟩
    | going t =>
      have hspent := (hfirst.repeatedly (m := m) _ t hstanding).2
      have haccounts := (Dispatch.accounts_start w.station h part).run moves
      rw [hmoves] at haccounts
      have hleft := (haccounts.standing.going hstanding).2
      omega
  obtain ⟨result, hended⟩ := hended
  refine ⟨moves, ?_, ?_⟩
  · rw [hmoves]
    change last.standing = .ended last.result
    rw [Run.result, hended]
  · rw [hmoves]
    rfl

end Session

namespace Errand

variable {σ : Type}

theorem run_append (y : Errand) (turns later : List Turn) :
    y.run (turns ++ later) = (y.run turns).run later :=
  List.foldl_append

theorem run_moves (x : Dispatch) (frames : List (MacHeader × List UInt8)) (moves : List Move) :
    (underway x frames).run (moves.map .move) = .underway (x.run moves) frames := by
  induction moves generalizing x with
  | nil => rfl
  | cons m moves ih => exact ih (x.move m)

theorem run_frame (m : Medium σ) (w : Session σ) (h : MacHeader) (part : List UInt8)
    (frames : List (MacHeader × List UInt8)) :
    ∃ turns, (between w.station ((h, part) :: frames)).run turns =
      match w.transmit m h part with
      | (w, .ok ()) => .between w.station frames
      | (w, .error e) => .returned w.station (.error e) := by
  obtain ⟨moves, hended, hstation⟩ := w.transmit_run m h part
  refine ⟨.advance :: (moves.map .move ++ [.advance]), ?_⟩
  have hrun : (between w.station ((h, part) :: frames)).run
      (.advance :: (moves.map .move ++ [.advance])) =
        (underway ((Dispatch.start w.station h part).run moves) frames).advance := by
    rw [← run_moves]
    simp [run, turn, advance]
  rw [hrun, advance, hended]
  generalize w.transmit m h part = sent at hstation
  obtain ⟨w', e | _⟩ := sent
  · exact congrArg (returned · (.error e)) hstation.symm
  · exact congrArg (between · frames) hstation.symm

end Errand

namespace Session

variable {σ : Type}

theorem transmitAll_run (m : Medium σ) (w : Session σ) (frames : List (MacHeader × List UInt8)) :
    ∃ turns, (Errand.between w.station frames).run turns =
      .returned (w.transmitAll m frames).1.station (w.transmitAll m frames).2 := by
  induction frames generalizing w with
  | nil => exact ⟨[.advance], rfl⟩
  | cons f frames ih =>
    obtain ⟨h, part⟩ := f
    obtain ⟨turns, hturns⟩ := Errand.run_frame m w h part frames
    rw [transmitAll]
    obtain ⟨⟨w', result⟩, hsent⟩ : ∃ sent, w.transmit m h part = sent := ⟨_, rfl⟩
    rw [hsent] at hturns ⊢
    cases result with
    | error e => exact ⟨turns, hturns⟩
    | ok =>
      obtain ⟨later, hlater⟩ := ih w'
      refine ⟨turns ++ later, ?_⟩
      rw [Errand.run_append, hturns]
      exact hlater

/-- A send over a medium is an errand that returns, with the same result. -/
theorem send_run (m : Medium σ) (w : Session σ) (destination : UInt8) (payload : List UInt8) :
    ∃ turns, (Errand.start w.station destination payload).run turns =
      .returned (w.send m destination payload).1.station (w.send m destination payload).2 := by
  unfold send Errand.start
  split_ifs
  · exact ⟨[], rfl⟩
  · exact ⟨[], rfl⟩
  · let frames := w.station.frames destination payload
    obtain ⟨turns, hturns⟩ :=
      transmitAll_run m (w.remark (.sending payload.length destination frames.length)) frames
    refine ⟨turns, hturns.trans ?_⟩
    dsimp only
    split
    · rename_i w' hok
      rw [hok]
      rfl
    · rfl

end Session

end SoundLink
