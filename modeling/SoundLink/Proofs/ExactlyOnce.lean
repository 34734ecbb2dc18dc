import SoundLink.Proofs.Delivery

namespace SoundLink

def Try.answered (heard : Bool) : Try :=
  .played [.frameArrives, if heard then .ackArrives else .ackLost 0]

namespace Station

/-- Every frame of a payload is answered, but the acknowledgement of a single frame is lost once. -/
def unluckyTries (sender : Station) (destination : UInt8) (payload : List UInt8) : List Try :=
  if payload.length ≤ sender.bytesPerFrame then [.answered false, .answered true]
  else .replicate (sender.frames destination payload).length (.answered true)

def unluckyPayloads (sender : Station) (payload : List UInt8) : List (List UInt8) :=
  if payload.length ≤ sender.bytesPerFrame then [payload, payload] else [payload]

theorem frames_of_le {s : Station} {destination : UInt8} {payload : List UInt8} (hne : payload ≠ [])
    (hle : payload.length ≤ s.bytesPerFrame) :
    s.frames destination payload = [(.data s.address destination 0 true, payload)] := by
  have hbytes : 0 < s.bytesPerFrame := (List.length_pos_iff.2 hne).trans_le hle
  rw [frames_eq, chunks_of_ne_nil hbytes hne, List.take_of_length_le hle,
    List.drop_eq_nil_of_le hle, chunks_nil]
  rfl

theorem length_unluckyPayloads (sender : Station) (payloads : List (List UInt8)) :
    (payloads.flatMap sender.unluckyPayloads).length =
      payloads.length + payloads.countP (·.length ≤ sender.bytesPerFrame) := by
  induction payloads with
  | nil => rfl
  | cons payload payloads ih =>
    rw [List.flatMap_cons, List.length_append, ih, unluckyPayloads, List.countP_cons,
      List.length_cons]
    split_ifs <;> simp_all <;> omega

end Station

variable {sender receiver : Station} {destination : UInt8} {s s' : SourceState} {a : Acceptance}
  {heard : Bool} {plan : List Try} {delivered : List (List UInt8)} {f : MacHeader × List UInt8}
  {payload : List UInt8}

structure Channels.Idle (w : Channels) (source destination : UInt8) (s : SourceState)
    (plan : List Try) (delivered : List (List UInt8)) : Prop where
  address_eq : w.receiver.address = destination
  holds : w.receiver.Holds source s
  frames_eq : w.frames = []
  acks_eq : w.acks = []
  delivered_eq : w.delivered = delivered
  plan_eq : w.plan = plan

theorem Channels.Idle.play {w : Channels} {source : UInt8}
    (h : w.Idle source destination s (.answered heard :: plan) delivered)
    (hlinks : f.1.Links source destination) (haccept : s.accept f.1 f.2 = (s', a))
    (ha : a ≠ .dropped) :
    (w.play (f.1.frame f.2)).1.Idle source destination s' plan (delivered ++ a.payload?.toList) ∧
      (w.play (f.1.frame f.2)).2 =
        .played (if heard then [.packet f.1.acknowledgement.bytes] else []) := by
  obtain ⟨receiver, frames, acks, given, next⟩ := w
  obtain ⟨haddress, hholds, rfl, rfl, rfl, rfl⟩ := h
  obtain ⟨r, hr, hr', harrive⟩ :=
    arrive_eq (w := ⟨receiver, [f.1.frame f.2], [], given, plan⟩)
      hlinks haddress rfl hholds haccept ha
  cases heard with
  | false =>
    simp only [Channels.play, Try.answered, Bool.false_eq_true, if_false, List.nil_append,
      happenAll, happen, harrive]
    exact ⟨⟨hr, hr', rfl, rfl, rfl, rfl⟩, trivial⟩
  | true =>
    simp only [Channels.play, Try.answered, if_true, List.nil_append, happenAll, happen, harrive]
    exact ⟨⟨hr, hr', rfl, rfl, rfl, rfl⟩, rfl⟩

namespace Session

structure Run.Poised (r : Run Channels) (sender : Station) (f : MacHeader × List UInt8)
    (waiting : Waiting) (retries : ℕ) (w : Channels) : Prop where
  bytes_eq : r.bytes = f.1.frame f.2
  medium_eq : r.session.medium = w
  station_eq : r.session.station.atRest = sender.atRest
  awaiting_eq : r.session.station.awaiting = some (f.1.destination, f.1.index)
  pending_eq : r.session.station.acks.pending = none
  standing_eq : ∃ timeouts, r.standing =
    .going ⟨f.1.destination, f.1.index, sender.maxRetries, waiting, retries, timeouts⟩

namespace Run

variable {r : Run Channels} {retries retries' : ℕ} {w w' : Channels} {waiting waiting' : Waiting}

theorem Poised.occur (h : r.Poised sender f waiting retries w) (hopen : sender.closed = false)
    {o : Occurrence} (hstep : ∀ timeouts, ∃ timeouts', (Transmission.step false
      ⟨f.1.destination, f.1.index, sender.maxRetries, waiting, retries, timeouts⟩ o).1 =
        .going ⟨f.1.destination, f.1.index, sender.maxRetries, waiting', retries', timeouts'⟩) :
    (r.occur o).Poised sender f waiting' retries' w := by
  obtain ⟨timeouts, hstanding⟩ := h.standing_eq
  obtain ⟨timeouts', hnext⟩ := hstep timeouts
  obtain ⟨-, -, -, hclosed⟩ := Station.eq_of_atRest h.station_eq
  rw [hopen] at hclosed
  unfold Run.occur
  rw [hstanding, hclosed]
  exact { h with standing_eq := ⟨timeouts', hnext⟩ }

theorem Poised.collect_eq (h : r.Poised sender f waiting retries w) : r.collect = r := by
  obtain ⟨timeouts, hstanding⟩ := h.standing_eq
  rw [collect, hstanding, h.pending_eq]

theorem Poised.attempt_eq (h : r.Poised sender f .free retries w) (hopen : sender.closed = false)
    (hretries : retries ≤ sender.maxRetries) {incidents : List Incident}
    (hplay : w.play (f.1.frame f.2) = (w', .played incidents)) :
    ∃ r' : Run Channels, r'.Poised sender f .acknowledgement retries w' ∧
      r.attempt Channels.medium =
        ((incidents.foldl (meet Channels.medium) r').occur .expired).rest := by
  have hfree : (r.occur .free).Poised sender f .played retries w := h.occur hopen fun timeouts ↦
    ⟨timeouts, by rw [Transmission.step_free, Transmission.proceed_of_le hretries]⟩
  unfold attempt
  generalize r.occur .free = r at hfree
  obtain ⟨timeouts, hstanding⟩ := hfree.standing_eq
  have hmoved :
      ({ r with session.medium := w' } : Run Channels).Poised sender f .played retries w' :=
    { hfree with medium_eq := rfl }
  have hplayed := hmoved.occur hopen (o := .played) fun timeouts ↦
    ⟨timeouts, by rw [Transmission.step_played, Transmission.proceed_of_le hretries]⟩
  have hpassage : Channels.medium.play r.session.medium r.bytes = (w', .played incidents) := by
    rw [hfree.bytes_eq, hfree.medium_eq]
    exact hplay
  refine ⟨_, hplayed, ?_⟩
  dsimp only
  split
  · rename_i hended
    rw [hstanding] at hended
    cases hended
  · simp only [hpassage]
    exact congrArg (fun r ↦ ((incidents.foldl (meet Channels.medium) r).occur .expired).rest)
      hplayed.collect_eq

theorem Poised.attempt_unheard (h : r.Poised sender f .free retries w)
    (hopen : sender.closed = false) (hretries : retries < sender.maxRetries)
    (hplay : w.play (f.1.frame f.2) = (w', .played [])) :
    (r.attempt Channels.medium).Poised sender f .free (retries + 1) w' := by
  obtain ⟨r', hr', hattempt⟩ := h.attempt_eq hopen hretries.le hplay
  rw [hattempt]
  have hexpired : (r'.occur .expired).Poised sender f .free (retries + 1) w' :=
    hr'.occur hopen fun timeouts ↦ ⟨timeouts + 1, by
      rw [Transmission.step_expired, Transmission.proceed_of_le (Nat.succ_le_of_lt hretries)]⟩
  exact hexpired.occur hopen fun timeouts ↦ ⟨timeouts, rfl⟩

theorem occur_of_ended {result : Except MacError Unit} (h : r.standing = .ended result)
    (o : Occurrence) :
    r.occur o = r := by
  rw [Run.occur, h]

theorem Poised.meet_ack (h : r.Poised sender f .acknowledgement retries w)
    (hopen : sender.closed = false) (hlinks : f.1.Links sender.address f.1.destination) :
    (r.meet Channels.medium (.packet f.1.acknowledgement.bytes)).standing = .ended (.ok ()) ∧
      (r.meet Channels.medium (.packet f.1.acknowledgement.bytes)).session.station.atRest =
        sender.atRest ∧
      (r.meet Channels.medium (.packet f.1.acknowledgement.bytes)).session.medium = w := by
  obtain ⟨haddress, -, -, hclosed⟩ := Station.eq_of_atRest h.station_eq
  rw [hopen] at hclosed
  obtain ⟨timeouts, hstanding⟩ := h.standing_eq
  have hhear := Station.handle_ack hlinks haddress
  rw [if_pos h.awaiting_eq] at hhear
  simp only [meet, hclosed, Bool.false_eq_true, if_false, hear, hhear, collect, hstanding,
    Signal.notify, if_true, Run.occur]
  refine ⟨Transmission.step_acknowledged .., ?_, h.medium_eq⟩
  rw [← h.station_eq, Station.atRest, Station.atRest, hclosed]

theorem Poised.attempt_heard (h : r.Poised sender f .free retries w) (hopen : sender.closed = false)
    (hlinks : f.1.Links sender.address f.1.destination) (hretries : retries ≤ sender.maxRetries)
    (hplay : w.play (f.1.frame f.2) = (w', .played [.packet f.1.acknowledgement.bytes])) :
    (r.attempt Channels.medium).standing = .ended (.ok ()) ∧
      (r.attempt Channels.medium).session.station.atRest = sender.atRest ∧
      (r.attempt Channels.medium).session.medium = w' := by
  obtain ⟨r', hr', hattempt⟩ := h.attempt_eq hopen hretries hplay
  obtain ⟨hended, hrest⟩ := hr'.meet_ack hopen hlinks
  rw [hattempt, List.foldl_cons, List.foldl_nil, occur_of_ended hended, rest, occur_of_ended hended]
  exact ⟨hended, hrest⟩

theorem repeatedly_of_ended {result : Except MacError Unit} (h : r.standing = .ended result)
    (n : ℕ) :
    r.repeatedly Channels.medium n = r := by
  cases n with
  | zero => rfl
  | succ n => rw [repeatedly, h]

theorem repeatedly_of_going {t : Transmission} (h : r.standing = .going t) (n : ℕ) :
    r.repeatedly Channels.medium (n + 1) =
      (r.attempt Channels.medium).repeatedly Channels.medium n := by
  rw [repeatedly, h]

end Run

structure Idle (w : Session Channels) (sender : Station) (destination : UInt8) (s : SourceState)
    (plan : List Try) (delivered : List (List UInt8)) : Prop where
  station_eq : w.station.atRest = sender.atRest
  medium_idle : w.medium.Idle sender.address destination s plan delivered

namespace Idle

variable {w : Session Channels} {a' : Acceptance} {s'' : SourceState}

theorem begin_poised (h : w.Idle sender destination s plan delivered)
    (hopen : sender.closed = false) (f : MacHeader × List UInt8) :
    (w.begin f.1 f.2).Poised sender f .free 0 w.medium := by
  obtain ⟨-, -, hretries, hclosed⟩ := Station.eq_of_atRest h.station_eq
  rw [hopen] at hclosed
  refine ⟨rfl, rfl, h.station_eq, rfl, rfl, 0, ?_⟩
  rw [begin, hclosed, hretries, Transmission.proceed_of_le (Nat.zero_le _)]

theorem transmit_heard (h : w.Idle sender destination s (.answered true :: plan) delivered)
    (hopen : sender.closed = false) (hlinks : f.1.Links sender.address destination)
    (haccept : s.accept f.1 f.2 = (s', a)) (ha : a ≠ .dropped) :
    (w.transmit Channels.medium f.1 f.2).2 = .ok () ∧
      (w.transmit Channels.medium f.1 f.2).1.Idle sender destination s' plan
        (delivered ++ a.payload?.toList) := by
  obtain rfl := hlinks.destination_eq
  have hpoised := h.begin_poised hopen f
  obtain ⟨timeouts, hgoing⟩ := hpoised.standing_eq
  obtain ⟨hidle, hplay⟩ := h.medium_idle.play hlinks haccept ha
  obtain ⟨hended, hstation, hmedium⟩ :=
    hpoised.attempt_heard hopen hlinks (Nat.zero_le _) (Prod.ext rfl hplay)
  rw [transmit_eq, Run.repeatedly_of_going hgoing, Run.repeatedly_of_ended hended]
  refine ⟨?_, hstation, ?_⟩
  · rw [Run.result, hended]
  · rw [hmedium]
    exact hidle

theorem transmit_unheard
    (h : w.Idle sender destination s (.answered false :: .answered true :: plan) delivered)
    (hopen : sender.closed = false) (hlinks : f.1.Links sender.address destination)
    (hretries : 0 < sender.maxRetries) (haccept : s.accept f.1 f.2 = (s', a)) (ha : a ≠ .dropped)
    (haccept' : s'.accept f.1 f.2 = (s'', a')) (ha' : a' ≠ .dropped) :
    (w.transmit Channels.medium f.1 f.2).2 = .ok () ∧
      (w.transmit Channels.medium f.1 f.2).1.Idle sender destination s'' plan
        (delivered ++ a.payload?.toList ++ a'.payload?.toList) := by
  obtain rfl := hlinks.destination_eq
  have hpoised := h.begin_poised hopen f
  obtain ⟨timeouts, hgoing⟩ := hpoised.standing_eq
  obtain ⟨hidle, hplay⟩ := h.medium_idle.play hlinks haccept ha
  have hpoised' := hpoised.attempt_unheard hopen hretries (Prod.ext rfl hplay)
  obtain ⟨timeouts', hgoing'⟩ := hpoised'.standing_eq
  obtain ⟨hidle', hplay'⟩ := hidle.play hlinks haccept' ha'
  obtain ⟨hended, hstation, hmedium⟩ :=
    hpoised'.attempt_heard hopen hlinks (Nat.succ_le_of_lt hretries) (Prod.ext rfl hplay')
  have hbudget : w.station.maxRetries + 1 = (w.station.maxRetries - 1) + 1 + 1 := by
    have := (Station.eq_of_atRest h.station_eq).2.2.1
    omega
  rw [transmit_eq, hbudget, Run.repeatedly_of_going hgoing, Run.repeatedly_of_going hgoing',
    Run.repeatedly_of_ended hended]
  refine ⟨?_, hstation, ?_⟩
  · rw [Run.result, hended]
  · rw [hmedium]
    exact hidle'

theorem transmitAll {frames : List (MacHeader × List UInt8)}
    (h : w.Idle sender destination s (.replicate frames.length (.answered true) ++ plan) delivered)
    (hopen : sender.closed = false) (hframes : s.Completes frames payload)
    (hlinks : ∀ f ∈ frames, f.1.Links sender.address destination) :
    (w.transmitAll Channels.medium frames).2 = .ok () ∧ ∃ s', s'.Fresh ∧
      (w.transmitAll Channels.medium frames).1.Idle sender destination s' plan
        (delivered ++ [payload]) := by
  induction hframes generalizing w delivered with
  | @last s f hf hlast =>
    have haccept : s.accept f.1 f.2 =
        (⟨0, [], some f.1.index⟩, .accepted (some (s.held ++ f.2))) := by
      rw [hf.accept_eq, SourceState.take_of_last hlast]
    obtain ⟨hok, hidle⟩ := h.transmit_heard hopen (hlinks f List.mem_cons_self) haccept (by simp)
    rw [transmitAll_cons, hok]
    exact ⟨rfl, _, ⟨rfl, rfl⟩, hidle⟩
  | @more s f frames payload hf hlast hframes ih =>
    have haccept : s.accept f.1 f.2 = ((s.take f.1 f.2).1, .accepted none) := by
      rw [hf.accept_eq, SourceState.take_of_not_last hlast]
    obtain ⟨hok, hidle⟩ := h.transmit_heard hopen (hlinks f List.mem_cons_self) haccept (by simp)
    rw [transmitAll_cons, hok]
    rw [Acceptance.payload?, Option.toList_none, List.append_nil] at hidle
    exact ih hidle fun f hf ↦ hlinks f (List.mem_cons_of_mem _ hf)

theorem transmitAll_single
    (h : w.Idle sender destination s (.answered false :: .answered true :: plan) delivered)
    (hs : s.Fresh) (hopen : sender.closed = false) (hlinks : f.1.Links sender.address destination)
    (hretries : 0 < sender.maxRetries) (hindex : f.1.index = 0) (hlast : f.1.isLast = true) :
    (w.transmitAll Channels.medium [f]).2 = .ok () ∧ ∃ s', s'.Fresh ∧
      (w.transmitAll Channels.medium [f]).1.Idle sender destination s' plan
        (delivered ++ [f.2, f.2]) := by
  have haccept : ∀ s : SourceState, s.Fresh →
      s.accept f.1 f.2 = (⟨0, [], some f.1.index⟩, .accepted (some f.2)) := by
    intro s hs
    rw [SourceState.accept_of_expected (hindex.trans hs.1.symm) fun _ ↦ hs.2,
      SourceState.take_of_last hlast, hs.2, List.nil_append]
  obtain ⟨hok, hidle⟩ :=
    h.transmit_unheard hopen hlinks hretries (haccept s hs) (by simp) (haccept _ ⟨rfl, rfl⟩)
      (by simp)
  rw [transmitAll_cons, hok]
  rw [Acceptance.payload?, Option.toList_some, List.append_assoc] at hidle
  exact ⟨rfl, _, ⟨rfl, rfl⟩, hidle⟩

theorem transmitAll_frames
    (h : w.Idle sender destination s (sender.unluckyTries destination payload ++ plan) delivered)
    (hs : s.Fresh) (hready : sender.Ready destination) (hretries : 0 < sender.maxRetries)
    (hne : payload ≠ []) (hle : payload.length ≤ maxFrames * sender.bytesPerFrame) :
    (w.transmitAll Channels.medium (sender.frames destination payload)).2 = .ok () ∧
      ∃ s', s'.Fresh ∧
      (w.transmitAll Channels.medium (sender.frames destination payload)).1.Idle
        sender destination s' plan (delivered ++ sender.unluckyPayloads payload) := by
  by_cases hshort : payload.length ≤ sender.bytesPerFrame
  · rw [Station.unluckyTries, if_pos hshort] at h
    rw [Station.unluckyPayloads, if_pos hshort, Station.frames_of_le hne hshort]
    have hlinks :
        (MacHeader.data sender.address destination 0 true).Links sender.address destination :=
      ⟨rfl, rfl, rfl, hready.source_le, hready.destination_le⟩
    exact h.transmitAll_single hs hready.sender_open hlinks hretries rfl rfl
  · rw [Station.unluckyTries, if_neg hshort] at h
    rw [Station.unluckyPayloads, if_neg hshort]
    exact h.transmitAll hready.sender_open (hs.completes hready.bytes_pos hne hle destination)
      fun f hf ↦ hready.links hf

theorem send
    (h : w.Idle sender destination s (sender.unluckyTries destination payload ++ plan) delivered)
    (hs : s.Fresh) (hready : sender.Ready destination) (hretries : 0 < sender.maxRetries)
    (hne : payload ≠ []) (hle : payload.length ≤ maxFrames * sender.bytesPerFrame) :
    (w.send Channels.medium destination payload).2 = .ok () ∧ ∃ s', s'.Fresh ∧
      (w.send Channels.medium destination payload).1.Idle sender destination s' plan
        (delivered ++ sender.unluckyPayloads payload) := by
  obtain ⟨w', remarks, hstation, hmedium, hsend⟩ :=
    send_eq Channels.medium h.station_eq hready.destination_le hne
  have hstart : w'.Idle sender destination s
      (sender.unluckyTries destination payload ++ plan) delivered :=
    ⟨hstation ▸ h.station_eq, hmedium ▸ h.medium_idle⟩
  obtain ⟨hok, s', hs', hidle⟩ :=
    hstart.transmitAll_frames hs hready hretries hne hle
  rw [hsend]
  exact ⟨hok, s', hs', hidle.station_eq, hidle.medium_idle⟩

theorem sendAll {payloads : List (List UInt8)}
    (h : w.Idle sender destination s (payloads.flatMap (sender.unluckyTries destination)) delivered)
    (hs : s.Fresh) (hready : sender.Ready destination) (hretries : 0 < sender.maxRetries)
    (hpayloads : ∀ p ∈ payloads, p ≠ [] ∧ p.length ≤ maxFrames * sender.bytesPerFrame) :
    (∀ result ∈ (w.sendAll Channels.medium destination payloads).2, result = .ok ()) ∧
      (w.sendAll Channels.medium destination payloads).1.medium.delivered =
        delivered ++ payloads.flatMap sender.unluckyPayloads := by
  induction payloads generalizing w s delivered with
  | nil => exact ⟨by simp [Session.sendAll], by simp [Session.sendAll, h.medium_idle.delivered_eq]⟩
  | cons payload payloads ih =>
    obtain ⟨hne, hle⟩ := hpayloads payload List.mem_cons_self
    obtain ⟨hok, s', hs', hnext⟩ := h.send hs hready hretries hne hle
    obtain ⟨hall, hdelivered⟩ := ih hnext hs' fun p hp ↦ hpayloads p (List.mem_cons_of_mem _ hp)
    rw [Session.sendAll]
    refine ⟨?_, ?_⟩
    · rintro result hresult
      obtain rfl | hresult := List.mem_cons.1 hresult
      · exact hok
      · exact hall result hresult
    · rw [List.flatMap_cons, ← List.append_assoc]
      exact hdelivered

end Idle

end Session

/-- Every send succeeds, and every payload of a single frame comes out twice. -/
theorem Station.Pair.exchange_unlucky (h : sender.Pair receiver) (hretries : 0 < sender.maxRetries)
    (payloads : List (List UInt8))
    (hpayloads : ∀ p ∈ payloads, p ≠ [] ∧ p.length ≤ maxFrames * sender.bytesPerFrame) :
    let w :=
      sender.exchange receiver (payloads.flatMap (sender.unluckyTries receiver.address)) payloads
    (∀ result ∈ w.2, result = .ok ()) ∧
      w.1.medium.delivered = payloads.flatMap sender.unluckyPayloads :=
  Session.Idle.sendAll ⟨rfl, rfl, h.holds, rfl, rfl, rfl, rfl⟩ ⟨rfl, rfl⟩ h.ready hretries hpayloads

/-- Payloads come out once and in order, whatever is lost, exactly if none fits a single frame or
nothing is sent again. -/
theorem Station.Pair.exactly_once_iff {payloads : List (List UInt8)} (h : sender.Pair receiver)
    (hpayloads : ∀ p ∈ payloads, p ≠ [] ∧ p.length ≤ maxFrames * sender.bytesPerFrame) :
    (∀ plan later, (∀ result ∈ (sender.exchange receiver plan payloads).2, result = .ok ()) →
        ((sender.exchange receiver plan payloads).1.medium.happenAll later).1.delivered =
          payloads) ↔
      sender.maxRetries = 0 ∨ ∀ p ∈ payloads, sender.bytesPerFrame < p.length := by
  constructor
  · intro hall
    by_contra hnot
    obtain ⟨hretries, hshort⟩ := not_or.1 hnot
    obtain ⟨hok, hdelivered⟩ := h.exchange_unlucky (Nat.pos_of_ne_zero hretries) _ hpayloads
    -- more comes out than was sent
    have htwice := congrArg List.length ((hall _ [] hok).symm.trans hdelivered)
    rw [length_unluckyPayloads] at htwice
    simp only [not_forall, Nat.not_lt, exists_prop] at hshort
    obtain ⟨p, hp, hle⟩ := hshort
    have hpos : 0 < payloads.countP (·.length ≤ sender.bytesPerFrame) :=
      List.countP_pos_iff.2 ⟨p, hp, by simpa using hle⟩
    omega
  · rintro (hretries | hlong) plan later hok
    · exact h.delivered_eq hpayloads (fun hpos ↦ absurd hretries hpos.ne') plan later hok
    · exact h.delivered_eq hpayloads (fun _ ↦ hlong) plan later hok

theorem Station.Pair.exactly_once_iff_three_bytes :
    (∀ plan later,
        (∀ result ∈ ((ofConfig { bytesPerFrame := 2 }).exchange (ofConfig { address := 1 }) plan
          [[1, 2, 3]]).2, result = .ok ()) →
        (((ofConfig { bytesPerFrame := 2 }).exchange (ofConfig { address := 1 }) plan
          [[1, 2, 3]]).1.medium.happenAll later).1.delivered = [[1, 2, 3]]) ↔
      (ofConfig { bytesPerFrame := 2 }).maxRetries = 0 ∨
        ∀ p ∈ [[(1 : UInt8), 2, 3]], (ofConfig { bytesPerFrame := 2 }).bytesPerFrame < p.length :=
  exactly_once_iff (pair_ofConfig (by decide) (by decide) (by decide) (by decide)) (by decide)

/-- The acknowledgement of a single frame is lost, and so the frame is sent and taken again. -/
theorem Station.exchange_ack_lost :
    let w := (ofConfig {}).exchange (ofConfig { address := 1 })
      [.played [.frameArrives, .ackLost 0], .played [.frameArrives, .ackArrives]] [[122]]
    (∀ result ∈ w.2, result = .ok ()) ∧ w.1.medium.delivered = [[122], [122]] :=
  have hpair : (ofConfig {}).Pair (ofConfig { address := 1 }) :=
    pair_ofConfig (by decide) (by decide) (by decide) (by decide)
  hpair.exchange_unlucky (by decide) [[122]] (by decide)

end SoundLink
