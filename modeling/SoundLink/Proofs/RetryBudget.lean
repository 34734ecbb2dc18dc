import SoundLink.Mac.Dispatch
import SoundLink.Proofs.Acknowledgement
import Mathlib.Data.List.Induction

namespace SoundLink

namespace Transmission

variable {t : Transmission} {index : UInt8} {budget handed : ℕ}

/-- How often the frame has been handed down: once for each retry, and once more while the outcome of
the last try is open. -/
def tries (t : Transmission) : ℕ :=
  match t.waiting with
  | .free | .backoff => t.retries
  | .played | .acknowledgement => t.retries + 1

theorem retries_le_tries (t : Transmission) : t.retries ≤ t.tries := by
  unfold tries
  split <;> omega

structure Accounts (t : Transmission) (index : UInt8) (budget handed : ℕ) : Prop where
  index_eq : t.index = index
  maxRetries_eq : t.maxRetries = budget
  tries_eq : t.tries = handed
  handed_le : handed ≤ budget + 1

end Transmission

/-- One that goes on has a retry left; one that has run out of them has used up every try. -/
structure Standing.Accounts (standing : Standing) (index : UInt8) (budget handed : ℕ) : Prop where
  going : ∀ {t}, standing = .going t → t.Accounts index budget handed ∧ t.retries ≤ budget
  exhausted : ∀ {i n}, standing = .ended (.error (.retriesExhausted i n)) →
    i = index ∧ n = budget + 1 ∧ handed = budget + 1
  handed_le : handed ≤ budget + 1

namespace Transmission

variable {t : Transmission} {index : UInt8} {budget handed : ℕ}

theorem countP_proceed (closed : Bool) (t : Transmission) :
    (t.proceed closed).2.countP Notice.isAttempt = 0 := by
  unfold proceed
  split_ifs <;> rfl

theorem Accounts.proceed (h : t.Accounts index budget handed) (closed : Bool) :
    (t.proceed closed).1.Accounts index budget handed := by
  obtain ⟨hindex, hbudget, htries, hle⟩ := h
  have hretries := t.retries_le_tries
  unfold Transmission.proceed
  split_ifs with hclosed hspent
  · exact ⟨nofun, nofun, hle⟩
  · refine ⟨nofun, ?_, hle⟩
    intro i n hexhausted
    cases hexhausted
    exact ⟨hindex, by omega, by omega⟩
  · refine ⟨?_, nofun, hle⟩
    intro t' hgoing
    cases hgoing
    exact ⟨⟨hindex, hbudget, htries, hle⟩, by omega⟩

theorem Accounts.step (h : t.Accounts index budget handed) (hretries : t.retries ≤ budget)
    (closed : Bool) (o : Occurrence) :
    (t.step closed o).1.Accounts index budget
      (handed + (t.step closed o).2.countP Notice.isAttempt) := by
  have hafter : ∀ {t' : Transmission} (notices : List Notice), t'.Accounts index budget handed →
      notices.countP Notice.isAttempt = 0 →
      (t'.proceed closed).1.Accounts index budget
        (handed + (notices ++ (t'.proceed closed).2).countP Notice.isAttempt) := by
    intro t' notices h' hnotices
    rw [List.countP_append, hnotices, countP_proceed]
    exact h'.proceed closed
  have hended : ∀ result : Except MacError Unit,
      (∀ i n, result ≠ .error (.retriesExhausted i n)) →
      (Standing.ended result).Accounts index budget handed := by
    intro result hresult
    refine ⟨nofun, ?_, h.handed_le⟩
    intro i n heq
    exact absurd (Standing.ended.inj heq) (hresult i n)
  have hsame : (Standing.going t).Accounts index budget handed := by
    refine ⟨?_, nofun, h.handed_le⟩
    intro t' hgoing
    cases hgoing
    exact ⟨h, hretries⟩
  obtain ⟨hindex, hbudget, htries, hle⟩ := h
  obtain ⟨destination, i, maxRetries, waiting, retries, timeouts⟩ := t
  cases waiting with
  | free =>
    cases o with
    | busy => exact hafter [.deferred] ⟨hindex, hbudget, htries, hle⟩ rfl
    | free =>
      have hplayed : Transmission.Accounts
          ⟨destination, i, maxRetries, .played, retries, timeouts⟩ index budget (handed + 1) :=
        ⟨hindex, hbudget, congrArg (· + 1) htries, Nat.succ_le_succ (htries ▸ hretries)⟩
      cases closed with
      | true => exact hended _ nofun
      | false =>
        unfold Transmission.step
        dsimp only
        rw [proceed_of_le (hretries.trans_eq hbudget.symm)]
        refine ⟨?_, nofun, hplayed.handed_le⟩
        intro t' hgoing
        cases hgoing
        exact ⟨hplayed, hretries⟩
    | _ => exact hsame
  | played =>
    cases o with
    | played => exact hafter [] ⟨hindex, hbudget, htries, hle⟩ rfl
    | cutOff => exact hended _ nofun
    | disturbed e => exact hafter [.collision e] ⟨hindex, hbudget, htries, hle⟩ rfl
    | _ => exact hsame
  | acknowledgement =>
    cases o with
    | acknowledged j =>
      unfold Transmission.step
      dsimp only
      split_ifs
      · exact hended _ nofun
      · exact hafter [] ⟨hindex, hbudget, htries, hle⟩ rfl
    | disturbed e => exact hafter [.disturbance e] ⟨hindex, hbudget, htries, hle⟩ rfl
    | expired => exact hafter [.timeout _] ⟨hindex, hbudget, htries, hle⟩ rfl
    | _ => exact hsame
  | backoff =>
    cases o with
    | rested delay => exact hafter [.backedOff delay _] ⟨hindex, hbudget, htries, hle⟩ rfl
    | _ => exact hsame

/-- A busy channel and an acknowledgement of another frame leave the sender where it is, unless it finds
its layer closed. -/
theorem step_idle (h : t.retries ≤ t.maxRetries) (closed : Bool) {o : Occurrence}
    (ho : o = .busy ∨ ∃ i, i ≠ t.index ∧ o = .acknowledged i) :
    (t.step closed o).2.countP Notice.isAttempt = 0 ∧
      ((t.step closed o).1 = .going t ∨
        closed = true ∧ (t.step closed o).1 = .ended (.error .closed)) := by
  have hproceed : t.proceed closed =
      (if closed then .ended (.error .closed) else .going t, []) := by
    cases closed with
    | true => rfl
    | false => exact proceed_of_le h
  have hstep : t.step closed o = (.going t, []) ∨
      ∃ notices, notices.countP Notice.isAttempt = 0 ∧
        t.step closed o = ((t.proceed closed).1, notices ++ (t.proceed closed).2) := by
    unfold Transmission.step
    obtain rfl | ⟨i, hi, rfl⟩ := ho
    · cases t.waiting with
      | free => exact .inr ⟨[.deferred], rfl, rfl⟩
      | _ => exact .inl rfl
    · cases t.waiting with
      | acknowledgement => exact .inr ⟨[], rfl, if_neg hi⟩
      | _ => exact .inl rfl
  obtain hstep | ⟨notices, hnotices, hstep⟩ := hstep
  · rw [hstep]
    exact ⟨rfl, .inl rfl⟩
  · rw [hstep, hproceed, List.append_nil]
    cases closed with
    | true => exact ⟨hnotices, .inr ⟨rfl, rfl⟩⟩
    | false => exact ⟨hnotices, .inl rfl⟩

end Transmission

def MacHeader.AcknowledgedBy (h : MacHeader) (address : UInt8) (packet : List UInt8) : Prop :=
  ∃ ack part, MacHeader.parse packet = .ok (ack, part) ∧ ack.kind = .ack ∧
    ack.destination = address ∧ ack.source = h.destination ∧ ack.index = h.index

namespace Station

variable {s : Station} {packet : List UInt8}

theorem handle_cases (s : Station) (packet : List UInt8) :
    (∃ ack part, MacHeader.parse packet = .ok (ack, part) ∧ ack.kind = .ack ∧
      ack.destination = s.address ∧ s.awaiting = some (ack.source, ack.index) ∧
      (s.handle packet).1 = { s with acks := s.acks.notify ack.index }) ∨
    ∃ reassembler output, (s.handle packet).1 = { s with reassembler, output } := by
  unfold handle
  split
  · exact .inr ⟨_, _, rfl⟩
  · rename_i h part hparse
    split_ifs with hdestination
    · exact .inr ⟨_, _, rfl⟩
    · cases hkind : h.kind with
      | ack =>
        dsimp only
        split_ifs with hawaited
        · exact .inl ⟨h, part, hparse, hkind, not_not.1 hdestination, hawaited, rfl⟩
        · exact .inr ⟨_, _, rfl⟩
      | data =>
        dsimp only
        split <;> exact .inr ⟨_, _, rfl⟩

theorem handle_of_not_awaited {ack : MacHeader} {part : List UInt8}
    (hparse : MacHeader.parse packet = .ok (ack, part)) (hkind : ack.kind = .ack)
    (hother : s.awaiting ≠ some (ack.source, ack.index)) : (s.handle packet).1 = s := by
  unfold handle
  rw [hparse]
  dsimp only
  rw [hkind]
  split_ifs <;> rfl

theorem bystand_cases (s : Station) (m : Move) :
    (s.bystand m).address = s.address ∧ (s.bystand m).awaiting = s.awaiting ∧
      ((s.bystand m).acks = s.acks ∨
        ∃ packet ack part, m = .packet packet ∧ MacHeader.parse packet = .ok (ack, part) ∧
          ack.kind = .ack ∧ ack.destination = s.address ∧ s.awaiting = some (ack.source, ack.index) ∧
          (s.bystand m).acks = s.acks.notify ack.index) := by
  cases m with
  | packet packet =>
    rw [bystand]
    obtain ⟨ack, part, hparse, hkind, hdestination, hawaited, hhandle⟩ | ⟨_, _, hhandle⟩ :=
      s.handle_cases packet
    · rw [hhandle]
      exact ⟨rfl, rfl, .inr ⟨packet, ack, part, rfl, hparse, hkind, hdestination, hawaited, rfl⟩⟩
    · rw [hhandle]
      exact ⟨rfl, rfl, .inl rfl⟩
  | closing | meet | collect => exact ⟨rfl, rfl, .inl rfl⟩

end Station

namespace Dispatch

variable {x : Dispatch} {s : Station} {h : MacHeader} {part : List UInt8}

theorem occur_of_going {t : Transmission} (hgoing : x.standing = .going t) (o : Occurrence) :
    x.occur o = { x with
      standing := (t.step x.station.closed o).1
      handed := x.handed ++
        List.replicate ((t.step x.station.closed o).2.countP Notice.isAttempt) x.bytes } := by
  unfold occur
  rw [hgoing]

theorem occur_of_ended {result : Except MacError Unit} (hended : x.standing = .ended result)
    (o : Occurrence) : x.occur o = x := by
  unfold occur
  rw [hended]

theorem occur_station (x : Dispatch) (o : Occurrence) : (x.occur o).station = x.station := by
  unfold occur
  split <;> rfl

theorem move_cases (x : Dispatch) (m : Move) :
    x.move m = { x with station := x.station.bystand m } ∨
    (∃ o, x.move m = x.occur o ∧ ∀ i, o ≠ .acknowledged i) ∨
    ∃ t i, m = .collect ∧ x.standing = .going t ∧ t.waiting = .acknowledgement ∧
      x.station.acks.pending = some i ∧
      x.move m = { x with
        station := { x.station with acks := x.station.acks.clear } }.occur (.acknowledged i) := by
  cases m with
  | packet | closing => exact .inl rfl
  | meet o =>
    cases o with
    | acknowledged => exact .inl rfl
    | _ => exact .inr (.inl ⟨_, rfl, fun _ ↦ nofun⟩)
  | collect =>
    change x.collect = x ∨ _ ∨ ∃ t i, _ ∧ _ ∧ _ ∧ _ ∧ x.collect = _
    unfold collect
    split
    · rename_i t i hgoing hpending
      split_ifs with hwaiting
      · exact .inr (.inr ⟨t, i, rfl, hgoing, hwaiting, hpending, rfl⟩)
      · exact .inl rfl
    · exact .inl rfl

structure Accounts (x : Dispatch) (s : Station) (h : MacHeader) (part : List UInt8) : Prop where
  address_eq : x.station.address = s.address
  awaiting_eq : x.station.awaiting = some (h.destination, h.index)
  bytes_eq : x.bytes = h.frame part
  handed_eq : ∀ bytes ∈ x.handed, bytes = h.frame part
  standing : x.standing.Accounts h.index s.maxRetries x.handed.length

theorem accounts_start (s : Station) (h : MacHeader) (part : List UInt8) :
    (start s h part).Accounts s h part where
  address_eq := rfl
  awaiting_eq := rfl
  bytes_eq := rfl
  handed_eq := nofun
  standing := Transmission.Accounts.proceed ⟨rfl, rfl, rfl, Nat.zero_le _⟩ _

theorem Accounts.occur (hx : x.Accounts s h part) (o : Occurrence) :
    (x.occur o).Accounts s h part := by
  unfold Dispatch.occur
  split
  · exact hx
  · rename_i t hgoing
    obtain ⟨ht, hretries⟩ := hx.standing.going hgoing
    refine { hx with handed_eq := ?_, standing := ?_ }
    · intro bytes hbytes
      obtain hold | hnew := List.mem_append.1 hbytes
      · exact hx.handed_eq bytes hold
      · rw [List.eq_of_mem_replicate hnew, hx.bytes_eq]
    · have hstep := ht.step hretries x.station.closed o
      dsimp only
      rwa [List.length_append, List.length_replicate]

theorem Accounts.of_station (hx : x.Accounts s h part) {station : Station}
    (haddress : station.address = x.station.address)
    (hawaiting : station.awaiting = x.station.awaiting) :
    ({ x with station } : Dispatch).Accounts s h part :=
  { hx with
    address_eq := haddress.trans hx.address_eq
    awaiting_eq := hawaiting.trans hx.awaiting_eq }

theorem Accounts.move (hx : x.Accounts s h part) (m : Move) : (x.move m).Accounts s h part := by
  obtain hmove | ⟨o, hmove, -⟩ | ⟨t, i, -, -, -, -, hmove⟩ := x.move_cases m
  · obtain ⟨haddress, hawaiting, -⟩ := x.station.bystand_cases m
    rw [hmove]
    exact hx.of_station haddress hawaiting
  · rw [hmove]
    exact hx.occur o
  · rw [hmove]
    have hcleared : ({ x with
        station := { x.station with acks := x.station.acks.clear } } : Dispatch).Accounts s h part :=
      hx.of_station rfl rfl
    exact hcleared.occur _

theorem Accounts.run (hx : x.Accounts s h part) (moves : List Move) :
    (x.run moves).Accounts s h part := by
  induction moves generalizing x with
  | nil => exact hx
  | cons m moves ih => exact ih (hx.move m)

/-- A packet among the moves has raised the acknowledgement of a frame, which has been pending ever
since. -/
def Raised (x : Dispatch) (h : MacHeader) (moves : List Move) : Prop :=
  ∃ before packet since, moves = before ++ .packet packet :: since ∧
    h.AcknowledgedBy x.station.address packet ∧
    ∀ later, later <+: since →
      (x.run (before ++ .packet packet :: later)).station.acks.pending = some h.index

/-- The sender has taken such an acknowledgement, and that has ended its wait. -/
def Heard (x : Dispatch) (h : MacHeader) (moves : List Move) : Prop :=
  ∃ before after t, moves = before ++ .collect :: after ∧ x.Raised h before ∧
    (x.run before).standing = .going t ∧ t.waiting = .acknowledgement ∧
    (x.run (before ++ [.collect])).standing = .ended (.ok ()) ∧
    (x.run (before ++ [.collect])).station.acks.pending = none

theorem run_concat (x : Dispatch) (moves : List Move) (m : Move) :
    x.run (moves ++ [m]) = (x.run moves).move m := by
  simp [run]

theorem occur_ended {o : Occurrence} (hended : (x.occur o).standing = .ended (.ok ())) :
    x.standing = .ended (.ok ()) ∨ ∃ t, x.standing = .going t ∧ o = .acknowledged t.index := by
  cases hstanding : x.standing with
  | ended result =>
    rw [occur_of_ended hstanding, hstanding] at hended
    exact .inl hended
  | going t =>
    rw [occur_of_going hstanding] at hended
    dsimp only at hended
    obtain ⟨e, he⟩ | ⟨next, -, hnext⟩ | ⟨ho, -⟩ := t.step_cases x.station.closed o
    · rw [he] at hended
      cases hended
    · rw [hnext] at hended
      cases hended
    · exact .inr ⟨t, rfl, ho⟩

theorem pending_move {m : Move} {i : UInt8} (hx : x.Accounts s h part)
    (hpending : (x.move m).station.acks.pending = some i) :
    x.station.acks.pending = some i ∨
      i = h.index ∧ ∃ packet, m = .packet packet ∧ h.AcknowledgedBy s.address packet := by
  obtain hmove | ⟨o, hmove, -⟩ | ⟨t, i, -, -, -, -, hmove⟩ := x.move_cases m
  · rw [hmove] at hpending
    dsimp only at hpending
    obtain ⟨-, -, hkept | ⟨packet, ack, rest, hm, hparse, hkind, hdestination, hawaited, hraised⟩⟩ :=
      x.station.bystand_cases m
    · rw [hkept] at hpending
      exact .inl hpending
    · rw [hraised] at hpending
      obtain rfl : ack.index = i := Option.some.inj hpending
      rw [hx.awaiting_eq] at hawaited
      obtain ⟨hsource, hindex⟩ := Prod.mk.inj (Option.some.inj hawaited)
      exact .inr ⟨hindex.symm, packet, hm, ack, rest, hparse, hkind,
        hdestination.trans hx.address_eq, hsource.symm, hindex.symm⟩
  · rw [hmove, occur_station] at hpending
    exact .inl hpending
  · rw [hmove, occur_station] at hpending
    cases hpending

theorem ended_move {m : Move} (hended : (x.move m).standing = .ended (.ok ())) :
    x.standing = .ended (.ok ()) ∨
      m = .collect ∧ (∃ t, x.standing = .going t ∧ t.waiting = .acknowledgement ∧
        x.station.acks.pending = some t.index) ∧ (x.move m).station.acks.pending = none := by
  obtain hmove | ⟨o, hmove, ho⟩ | ⟨t, i, hm, hgoing, hwaiting, hpending, hmove⟩ := x.move_cases m
  · rw [hmove] at hended
    exact .inl hended
  · rw [hmove] at hended
    exact (occur_ended hended).imp_right fun ⟨t, _, heq⟩ ↦ absurd heq (ho _)
  · rw [hmove] at hended ⊢
    obtain hbefore | ⟨t', hgoing', heq⟩ := occur_ended hended
    · exact .inl hbefore
    · cases heq
      rw [hgoing] at hgoing'
      cases hgoing'
      exact .inr ⟨hm, ⟨t, hgoing, hwaiting, hpending⟩, by rw [occur_station]; rfl⟩

theorem raised_run (s : Station) (h : MacHeader) (part : List UInt8) {moves : List Move} {i : UInt8}
    (hpending : ((start s h part).run moves).station.acks.pending = some i) :
    i = h.index ∧ (start s h part).Raised h moves := by
  induction moves using List.reverseRecOn with
  | nil => cases hpending
  | append_singleton moves m ih =>
    rw [run_concat] at hpending
    obtain hbefore | ⟨hindex, packet, rfl, hack⟩ :=
      pending_move ((accounts_start s h part).run moves) hpending
    · obtain ⟨hindex, before, packet, since, rfl, hack, hsince⟩ := ih hbefore
      refine ⟨hindex, before, packet, since ++ [m], by simp, hack, ?_⟩
      intro later hlater
      obtain rfl | hlater := List.prefix_concat_iff.1 hlater
      · rw [← List.cons_append, ← List.append_assoc, run_concat, hpending, hindex]
      · exact hsince later hlater
    · refine ⟨hindex, moves, packet, [], rfl, hack, ?_⟩
      intro later hlater
      rw [List.prefix_nil.1 hlater, run_concat, hpending, hindex]

theorem heard_run (s : Station) (h : MacHeader) (part : List UInt8) {moves : List Move}
    (hended : ((start s h part).run moves).standing = .ended (.ok ())) :
    (start s h part).Heard h moves := by
  induction moves using List.reverseRecOn with
  | nil =>
    obtain ⟨e, he⟩ | hgoing := Transmission.proceed_cases s.closed
      ⟨h.destination, h.index, s.maxRetries, .free, 0, 0⟩
    · cases he.symm.trans hended
    · cases hgoing.symm.trans hended
  | append_singleton moves m ih =>
    rw [run_concat] at hended
    obtain hbefore | ⟨rfl, ⟨t, hgoing, hwaiting, hpending⟩, htaken⟩ := ended_move hended
    · obtain ⟨before, after, t, rfl, hheard⟩ := ih hbefore
      exact ⟨before, after ++ [m], t, by simp, hheard⟩
    · refine ⟨moves, [], t, rfl, (raised_run s h part hpending).2, hgoing, hwaiting, ?_, ?_⟩
      · rw [run_concat, hended]
      · rw [run_concat, htaken]

theorem Accounts.occur_idle (hx : x.Accounts s h part) {o : Occurrence}
    (ho : o = .busy ∨ ∃ i, i ≠ h.index ∧ o = .acknowledged i) :
    (x.occur o).handed = x.handed ∧
      ((x.occur o).standing = x.standing ∨
        x.station.closed = true ∧ (x.occur o).standing = .ended (.error .closed)) := by
  cases hstanding : x.standing with
  | ended result =>
    rw [occur_of_ended hstanding, hstanding]
    exact ⟨rfl, .inl rfl⟩
  | going t =>
    obtain ⟨ht, hretries⟩ := hx.standing.going hstanding
    rw [← ht.index_eq] at ho
    obtain ⟨hnone, hsame⟩ := t.step_idle (hretries.trans_eq ht.maxRetries_eq.symm) x.station.closed ho
    rw [occur_of_going hstanding, hnone]
    exact ⟨List.append_nil _, hsame⟩

theorem Accounts.move_stale (hx : x.Accounts s h part) {packet rest : List UInt8} {ack : MacHeader}
    (hparse : MacHeader.parse packet = .ok (ack, rest)) (hkind : ack.kind = .ack)
    (hother : (ack.source, ack.index) ≠ (h.destination, h.index)) : x.move (.packet packet) = x := by
  have hnot : x.station.awaiting ≠ some (ack.source, ack.index) := by
    rw [hx.awaiting_eq]
    intro heq
    exact hother (Option.some.inj heq).symm
  change { x with station := (x.station.handle packet).1 } = x
  rw [Station.handle_of_not_awaited hparse hkind hnot]

end Dispatch

namespace Errand

def Released : Errand → Prop
  | .between s frames => s.awaiting = none ∨ frames ≠ []
  | .underway _ _ => True
  | .returned s _ => s.awaiting = none

theorem Released.turn {y : Errand} (hy : y.Released) (u : Turn) : (y.turn u).Released := by
  cases u with
  | advance =>
    change y.advance.Released
    unfold advance
    split
    · exact hy.resolve_right fun h ↦ h rfl
    · trivial
    · split
      · trivial
      · exact .inl rfl
      · rfl
    · exact hy
  | move m =>
    cases y with
    | between s frames =>
      exact hy.imp_left (s.bystand_cases m).2.1.trans
    | underway => trivial
    | returned s result => exact (s.bystand_cases m).2.1.trans hy

theorem Released.run {y : Errand} (hy : y.Released) (turns : List Turn) : (y.run turns).Released := by
  induction turns generalizing y with
  | nil => exact hy
  | cons u turns ih => exact ih (hy.turn u)

theorem released_start {s : Station} {destination : UInt8} {payload : List UInt8}
    (h : s.awaiting = none ∨
      destination.toNat ≤ Config.maxAddress ∧ s.frames destination payload ≠ []) :
    (start s destination payload).Released := by
  have hempty : payload.isEmpty = true → s.frames destination payload = [] := by
    intro hpayload
    rw [List.isEmpty_iff.1 hpayload, Station.frames, chunks_nil]
    rfl
  unfold start
  split_ifs with hdestination hpayload
  · exact h.resolve_right fun ⟨hvalid, _⟩ ↦ absurd hvalid (Nat.not_le.2 hdestination)
  · exact h.resolve_right fun ⟨_, hframes⟩ ↦ hframes (hempty hpayload)
  · exact h.imp_right And.right

end Errand

/-- A frame is handed down no more often than its budget allows, and given up only when that has been
used up; a busy channel and the acknowledgements of other frames take nothing from it. A frame that
succeeds has been acknowledged while it was on its way. When a send has returned, nothing is waited
for. -/
theorem Dispatch.run_within_budget (s : Station) (h : MacHeader) (part : List UInt8)
    (moves : List Move) :
    let x := (Dispatch.start s h part).run moves
    (x.handed.length ≤ s.maxRetries + 1 ∧ ∀ bytes ∈ x.handed, bytes = h.frame part) ∧
    (∀ index attempts, x.standing = .ended (.error (.retriesExhausted index attempts)) →
      index = h.index ∧ attempts = s.maxRetries + 1 ∧ x.handed.length = s.maxRetries + 1) ∧
    (∀ t, x.standing = .going t → t.retries ≤ s.maxRetries) ∧
    (∀ o, (o = .busy ∨ ∃ i, i ≠ h.index ∧ o = .acknowledged i) →
      (x.occur o).handed = x.handed ∧
        ((x.occur o).standing = x.standing ∨
          x.station.closed = true ∧ (x.occur o).standing = .ended (.error .closed))) ∧
    (∀ packet ack rest, MacHeader.parse packet = .ok (ack, rest) → ack.kind = .ack →
      (ack.source, ack.index) ≠ (h.destination, h.index) → x.move (.packet packet) = x) ∧
    (x.standing = .ended (.ok ()) → (Dispatch.start s h part).Heard h moves) ∧
    ∀ destination payload turns s' result,
      (s.awaiting = none ∨
        destination.toNat ≤ Config.maxAddress ∧ s.frames destination payload ≠ []) →
      (Errand.start s destination payload).run turns = .returned s' result → s'.awaiting = none := by
  intro x
  have hx : x.Accounts s h part := (accounts_start s h part).run moves
  refine ⟨⟨hx.standing.handed_le, hx.handed_eq⟩, fun _ _ ↦ hx.standing.exhausted,
    fun t hgoing ↦ (hx.standing.going hgoing).2, fun o ↦ hx.occur_idle,
    fun packet ack rest ↦ hx.move_stale, heard_run s h part, ?_⟩
  intro destination payload turns s' result hs hreturned
  have hreleased := (Errand.released_start hs).run turns
  rwa [hreturned] at hreleased

def Station.hasty : Station := ofConfig { address := 1, maxRetries := 1 }

/-- Frame 0 to station 2 is heard at the second try, after an acknowledgement of another frame. -/
def Dispatch.heardLate : List Move :=
  [.meet .busy, .meet .free, .packet (MacHeader.data 1 2 9 true).acknowledgement.bytes, .meet .played,
    .meet .expired, .meet .free, .packet (MacHeader.data 1 2 0 true).acknowledgement.bytes,
    .meet .played, .collect]

def Dispatch.unheard : List Move :=
  [.meet .free, .meet (.disturbed .emptyFrame), .meet (.rested 0), .meet .free, .meet .played,
    .meet .expired]

theorem Dispatch.run_within_budget_two_tries :
    let x := start .hasty (.data 1 2 0 true) [5]
    let other := (MacHeader.data 1 2 9 true).acknowledgement
    ((x.run heardLate).standing = .ended (.ok ()) ∧ x.Heard (.data 1 2 0 true) heardLate) ∧
    ((x.run unheard).standing = .ended (.error (.retriesExhausted 0 2)) ∧
      2 = Station.hasty.maxRetries + 1 ∧
      (x.run unheard).handed.length = Station.hasty.maxRetries + 1) ∧
    (MacHeader.parse other.bytes = .ok (other, []) ∧ other.kind = .ack ∧
      (other.source, other.index) ≠ (2, 0) ∧
      (x.run unheard).move (.packet other.bytes) = x.run unheard) ∧
    (Errand.start .hasty 2 [5]).run (.advance :: heardLate.map .move ++ [.advance, .advance]) =
      .returned .hasty (.ok ()) ∧ Station.hasty.awaiting = none := by
  have hheard : ((start .hasty (.data 1 2 0 true) [5]).run heardLate).standing = .ended (.ok ()) := by
    with_unfolding_all rfl
  have hunheard : ((start .hasty (.data 1 2 0 true) [5]).run unheard).standing =
      .ended (.error (.retriesExhausted 0 2)) := rfl
  have hparse : MacHeader.parse (MacHeader.data 1 2 9 true).acknowledgement.bytes =
      .ok ((MacHeader.data 1 2 9 true).acknowledgement, []) := by with_unfolding_all rfl
  have hother : ((2, 9) : UInt8 × UInt8) ≠ (2, 0) := by decide
  have hstart : Errand.start .hasty 2 [5] = .between .hasty [(.data 1 2 0 true, [5])] := by cbv
  have hreturned : (Errand.start .hasty 2 [5]).run
      (.advance :: heardLate.map .move ++ [.advance, .advance]) = .returned .hasty (.ok ()) := by
    rw [hstart]
    with_unfolding_all rfl
  obtain ⟨-, -, -, -, -, hok, -⟩ := run_within_budget .hasty (.data 1 2 0 true) [5] heardLate
  obtain ⟨-, hspent, -, -, hstale, -, hsend⟩ :=
    run_within_budget .hasty (.data 1 2 0 true) [5] unheard
  refine ⟨⟨hheard, hok hheard⟩, ⟨hunheard, (hspent 0 2 hunheard).2⟩,
    ⟨hparse, rfl, hother, hstale _ _ _ hparse rfl hother⟩, hreturned, ?_⟩
  exact hsend 2 [5] _ .hasty (.ok ()) (.inl rfl) hreturned

end SoundLink
