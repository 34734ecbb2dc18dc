import SoundLink.Mac.Air
import SoundLink.Proofs.Reassembly

namespace SoundLink

theorem MacHeader.parse_frame {h : MacHeader} (hs : h.source.toNat ≤ 7)
    (hd : h.destination.toNat ≤ 7) (part : List UInt8) : parse (h.frame part) = .ok (h, part) := by
  obtain ⟨source, destination, kind, isLast, index⟩ := h
  have hall : ∀ s d : Fin 8, ∀ a b : UInt8, (a = 0 ∨ a = 2) → (b = 0 ∨ b = 1) →
      ((UInt8.ofNat s &&& 7) <<< 5 ||| (UInt8.ofNat d &&& 7) <<< 2 ||| a ||| b) >>> 5 =
        UInt8.ofNat s ∧
      (((UInt8.ofNat s &&& 7) <<< 5 ||| (UInt8.ofNat d &&& 7) <<< 2 ||| a ||| b) >>> 2) &&& 7 =
        UInt8.ofNat d ∧
      ((UInt8.ofNat s &&& 7) <<< 5 ||| (UInt8.ofNat d &&& 7) <<< 2 ||| a ||| b) &&& 2 = a ∧
      ((UInt8.ofNat s &&& 7) <<< 5 ||| (UInt8.ofNat d &&& 7) <<< 2 ||| a ||| b) &&& 1 = b := by
    rintro s d a b (rfl | rfl) (rfl | rfl) <;> revert s d <;> decide +kernel
  obtain ⟨h₁, h₂, h₃, h₄⟩ :=
    hall ⟨source.toNat, Nat.lt_succ_of_le hs⟩ ⟨destination.toNat, Nat.lt_succ_of_le hd⟩
      (if kind = .ack then 2 else 0) (if isLast then 1 else 0) (by split <;> simp)
      (by split <;> simp)
  simp only [UInt8.ofNat_toNat] at h₁ h₂ h₃ h₄
  simp only [frame, bytes, List.cons_append, List.nil_append, parse, h₁, h₂, h₃, h₄]
  cases kind <;> cases isLast <;> rfl

inductive Happening
  | frameLost (i : ℕ)
  | ackLost (i : ℕ)
  | frameArrives
  | ackArrives
  | disturbance (e : DecodeError)

inductive Try
  | disturbed (e : DecodeError)
  /-- The frame is in flight, and the wait for its acknowledgement then lasts this long. -/
  | played (happenings : List Happening)

structure Channels where
  receiver : Station
  frames : List (List UInt8)
  acks : List (List UInt8)
  /-- The payloads that a reader has taken from the receiver, who never keeps them waiting. -/
  delivered : List (List UInt8)
  plan : List Try

namespace Channels

/-- The oldest frame reaches the receiver, and what it completes is read at once. -/
def arrive (w : Channels) : Channels :=
  match w.frames with
  | [] => w
  | frame :: frames =>
    let (receiver, ack) := w.receiver.handle frame
    let (receiver, payload) := receiver.receive
    { w with
      receiver, frames
      acks := w.acks ++ (ack.map MacHeader.bytes).toList
      delivered := w.delivered ++ (payload.toOption.join).toList }

def happen (w : Channels) : Happening → Channels × List Incident
  | .frameLost i => ({ w with frames := w.frames.eraseIdx i }, [])
  | .ackLost i => ({ w with acks := w.acks.eraseIdx i }, [])
  | .frameArrives => (w.arrive, [])
  | .ackArrives => ({ w with acks := w.acks.tail }, w.acks.head?.toList.map .packet)
  | .disturbance e => (w, [.disturbance e])

def happenAll (w : Channels) : List Happening → Channels × List Incident
  | [] => (w, [])
  | h :: rest =>
    let (w, incidents) := w.happen h
    let (w, more) := w.happenAll rest
    (w, incidents ++ more)

/-- Puts a frame in flight and goes by the plan; where that ends, nothing happens any more. -/
def play (w : Channels) (frame : List UInt8) : Channels × Passage :=
  match w.plan with
  | .disturbed e :: plan => ({ w with plan }, .disturbed e)
  | .played happenings :: plan =>
    let (w, incidents) := { w with plan, frames := w.frames ++ [frame] }.happenAll happenings
    (w, .played incidents)
  | [] => ({ w with frames := w.frames ++ [frame] }, .played [])

def medium : Medium Channels where
  play := play
  answer w _ := (w, [])

end Channels

def Acceptance.payload? : Acceptance → Option (List UInt8)
  | .accepted payload => payload
  | _ => none

/-- A station whose reader keeps up, and what it holds of a source. -/
structure Station.Holds (r : Station) (source : UInt8) (s : SourceState) : Prop where
  held : r.reassembler.sources.get (Reassembler.slot source) = s
  read : r.output.items = []
  room : 0 < r.output.capacity

structure MacHeader.Links (h : MacHeader) (source destination : UInt8) : Prop where
  kind_eq : h.kind = .data
  source_eq : h.source = source
  destination_eq : h.destination = destination
  source_le : h.source.toNat ≤ 7
  destination_le : h.destination.toNat ≤ 7

theorem SourceState.Recognises.accept_eq {s : SourceState} {h : MacHeader} {part : List UInt8}
    (hs : s.Recognises h part) :
    ∃ a, s.accept h part = (s, a) ∧ a ≠ .dropped ∧ a.payload? = none := by
  obtain ⟨-, h | h⟩ := hs
  · exact ⟨_, h, by decide, rfl⟩
  · exact ⟨_, h, by decide, rfl⟩

section

variable {source destination : UInt8} {h : MacHeader} {part : List UInt8}

theorem Reassembler.accept_eq {r : Reassembler} {s s' : SourceState} {a : Acceptance}
    (hs : r.sources.get (slot h.source) = s) (ha : s.accept h part = (s', a)) :
    ∃ r' : Reassembler, r'.sources.get (slot h.source) = s' ∧ r.accept h part = (r', a) := by
  have hs : r.sources[slot h.source] = s := hs
  have hstored : (r.sources.set (slot h.source) s')[slot h.source] = s' := by simp
  refine ⟨⟨r.sources.set (slot h.source) s'⟩, hstored, ?_⟩
  rw [accept, hs, ha]

theorem Station.receive_eq {r : Station} {payload : Option (List UInt8)}
    (h : r.output.items = payload.toList) :
    ∃ output : Queue (List UInt8), output.items = [] ∧ output.capacity = r.output.capacity ∧
      r.receive.1 = { r with output } ∧ r.receive.2.toOption.join = payload := by
  have htaken : r.output.tryReceive.2 = payload := by
    rw [Queue.tryReceive_eq_head?, h]
    cases payload <;> rfl
  have hitems : r.output.tryReceive.1.items = [] := by
    rw [Queue.items_tryReceive, h]
    cases payload <;> rfl
  have hcapacity : r.output.tryReceive.1.capacity = r.output.capacity := by
    unfold Queue.tryReceive
    split <;> rfl
  unfold receive
  cases payload with
  | none =>
    refine ⟨r.output, h, rfl, ?_⟩
    generalize r.output.tryReceive = result at htaken
    obtain ⟨output, taken⟩ := result
    obtain rfl : taken = none := htaken
    refine ⟨rfl, ?_⟩
    dsimp only
    split <;> rfl
  | some payload =>
    generalize r.output.tryReceive = result at htaken hitems hcapacity
    obtain ⟨output, taken⟩ := result
    obtain rfl : taken = some payload := htaken
    exact ⟨output, hitems, hcapacity, rfl, rfl⟩

theorem Station.handle_data (hh : h.Links source destination) {r : Station}
    (hr : r.address = destination) (part : List UInt8) :
    r.handle (h.frame part) =
      match r.reassembler.accept h part with
      | (reassembler, .accepted none) => ({ r with reassembler }, some h.acknowledgement)
      | (reassembler, .accepted (some payload)) =>
        ({ r with reassembler, output := (r.output.push payload).1 }, some h.acknowledgement)
      | (reassembler, .duplicate) => ({ r with reassembler }, some h.acknowledgement)
      | (reassembler, .dropped) => ({ r with reassembler }, none) := by
  have hparse := MacHeader.parse_frame hh.source_le hh.destination_le part
  rw [handle, hparse]
  simp only [hh.destination_eq, hr, hh.kind_eq, ne_eq, not_true_eq_false, if_false]
  cases r.reassembler.accept h part with
  | mk reassembler a => rcases a with (_ | payload) | _ | _ <;> rfl

theorem Station.handle_accept (hh : h.Links source destination) {r : Station}
    (hr : r.address = destination) {s s' : SourceState} {a : Acceptance} (hholds : r.Holds source s)
    (haccept : s.accept h part = (s', a)) (ha : a ≠ .dropped) :
    ∃ r', r.handle (h.frame part) = (r', some h.acknowledgement) ∧ r'.address = destination ∧
      r'.reassembler.sources.get (Reassembler.slot source) = s' ∧
        r'.output.items = a.payload?.toList ∧
      r'.output.capacity = r.output.capacity := by
  obtain ⟨hheld, hread, hroom⟩ := hholds
  have hsource := hh.source_eq
  subst hsource
  obtain ⟨reassembler, hstored, htaken⟩ := Reassembler.accept_eq hheld haccept
  have hhandle := handle_data hh hr part
  rw [htaken] at hhandle
  rcases a with (_ | payload) | _ | _
  · exact ⟨_, hhandle, hr, hstored, hread, rfl⟩
  · have hlt : r.output.items.length < r.output.capacity := by
      rw [hread]
      exact hroom
    refine ⟨_, hhandle, hr, hstored, ?_, ?_⟩
    · rw [Queue.items_push_of_lt hlt, hread]
      rfl
    · simp [Queue.push, Queue.trySend, hlt]
  · exact ⟨_, hhandle, hr, hstored, hread, rfl⟩
  · exact absurd rfl ha

theorem Station.handle_ack (hh : h.Links source destination) {s : Station}
    (hs : s.address = source) :
    s.handle h.acknowledgement.bytes =
      (if s.awaiting = some (destination, h.index) then { s with acks := s.acks.notify h.index }
        else s, none) := by
  have hparse : MacHeader.parse h.acknowledgement.bytes = .ok (h.acknowledgement, []) := by
    have := MacHeader.parse_frame (h := h.acknowledgement) hh.destination_le hh.source_le []
    rwa [MacHeader.frame, List.append_nil] at this
  rw [handle, hparse]
  simp [MacHeader.acknowledgement, hh.source_eq, hh.destination_eq, hs]

namespace Channels

variable {w : Channels} {frames : List (List UInt8)} {s s' : SourceState} {a : Acceptance}

theorem arrive_eq (hh : h.Links source destination) (hr : w.receiver.address = destination)
    (hw : w.frames = h.frame part :: frames) (hholds : w.receiver.Holds source s)
    (haccept : s.accept h part = (s', a)) (ha : a ≠ .dropped) :
    ∃ r, r.address = destination ∧ r.Holds source s' ∧
      w.arrive = { w with
        receiver := r, frames
        acks := w.acks ++ [h.acknowledgement.bytes]
        delivered := w.delivered ++ a.payload?.toList } := by
  obtain ⟨r, hhandle, haddress, hheld, hitems, hcapacity⟩ :=
    Station.handle_accept hh hr hholds haccept ha
  obtain ⟨output, hread, hcapacity', hreceive, hpayload⟩ := Station.receive_eq hitems
  refine ⟨{ r with output }, haddress, ⟨hheld, hread, ?_⟩, ?_⟩
  · rw [hcapacity', hcapacity]
    exact hholds.room
  · simp only [arrive, hw, hhandle, hreceive, hpayload]
    rfl

theorem arrive_eq_of_dropped (hh : h.Links source destination)
    (hr : w.receiver.address = destination) (hw : w.frames = h.frame part :: frames)
    (hholds : w.receiver.Holds source s) (haccept : s.accept h part = (s', .dropped)) :
    ∃ r, r.address = destination ∧ r.Holds source s' ∧
      w.arrive = { w with receiver := r, frames } := by
  obtain ⟨hheld, hread, hroom⟩ := hholds
  obtain rfl := hh.source_eq
  obtain ⟨reassembler, hstored, htaken⟩ := Reassembler.accept_eq hheld haccept
  have hhandle := Station.handle_data hh hr part
  rw [htaken] at hhandle
  have hitems : w.receiver.output.items = (none : Option (List UInt8)).toList := hread
  obtain ⟨output, houtput, hcapacity, hreceive, hpayload⟩ :=
    Station.receive_eq (r := { w.receiver with reassembler }) hitems
  refine ⟨{ w.receiver with reassembler, output }, hr, ⟨hstored, houtput, ?_⟩, ?_⟩
  · rw [hcapacity]
    exact hroom
  · simp only [arrive, hw, hhandle, hreceive, hpayload]
    simp

end Channels

end

/-- The transfer of a frame, when copies of the one before may still be in flight. -/
structure Transfer where
  sender : Station
  destination : UInt8
  previous : MacHeader × List UInt8
  current : MacHeader × List UInt8
  before : SourceState
  after : SourceState
  completes : Option (List UInt8)
  delivered : List (List UInt8)
  sender_open : sender.closed = false
  links_previous : previous.1.Links sender.address destination
  links_current : current.1.Links sender.address destination
  index_eq : current.1.index = before.expected
  accept_eq : before.accept current.1 current.2 = (after, .accepted completes)
  recognises : 0 < sender.maxRetries → after.Recognises current.1 current.2

namespace Transfer

/-- What is in flight of a transfer, where a copy of the current frame, or an acknowledgement of it,
stands as `true` and one of the frame before as `false`. -/
structure View where
  arrived : List Bool
  acks : List Bool
  frames : List Bool
  taken : Bool

namespace View

def inFlight (v : View) : List Bool := v.arrived ++ (v.acks ++ v.frames)

end View

variable (t : Transfer)

def header (current : Bool) : MacHeader := (if current then t.current else t.previous).1

def part (current : Bool) : List UInt8 := (if current then t.current else t.previous).2

def frame (current : Bool) : List UInt8 := (t.header current).frame (t.part current)

def ack (current : Bool) : List UInt8 := (t.header current).acknowledgement.bytes

theorem links (current : Bool) : (t.header current).Links t.sender.address t.destination := by
  cases current
  · exact t.links_previous
  · exact t.links_current

/-- The channels after so many tries and so many acknowledgements for the sender, given what has
happened to it since it looked. -/
structure Matches (tries used : ℕ) (incidents : List Incident) (v : View)
    (w : Channels) : Prop where
  address_eq : w.receiver.address = t.destination
  holds : w.receiver.Holds t.sender.address (if v.taken then t.after else t.before)
  delivered_eq : w.delivered = t.delivered ++ if v.taken then t.completes.toList else []
  open_eq : .closing ∉ incidents
  arrived_eq : incidents.filterMap Incident.packet? = v.arrived.map t.ack
  acks_eq : w.acks = v.acks.map t.ack
  frames_eq : w.frames = v.frames.map t.frame
  sorted : v.inFlight.Pairwise (· ≤ ·)
  recognised : false ∈ v.inFlight → t.before.Recognises t.previous.1 t.previous.2
  frames_of_taken : v.taken = true → false ∉ v.frames ∧ v.frames.length < tries
  acks_of_not_taken : v.taken = false → true ∉ v.arrived ++ v.acks ∧ used = 0
  of_used : 0 < used → false ∉ v.inFlight
  count_le : v.inFlight.count true + used ≤ tries

def Sees (tries used : ℕ) (incidents : List Incident) (w : Channels) : Prop :=
  ∃ v, t.Matches tries used incidents v w

variable {t} {tries used : ℕ} {incidents : List Incident} {v : View} {w : Channels}

theorem Matches.lose (h : t.Matches tries used incidents v w) {acks frames : List Bool}
    (ha : acks.Sublist v.acks) (hf : frames.Sublist v.frames) :
    t.Matches tries used incidents { v with acks, frames }
      { w with acks := acks.map t.ack, frames := frames.map t.frame } := by
  have hsub : (View.inFlight { v with acks, frames }).Sublist v.inFlight :=
    (List.Sublist.refl _).append (ha.append hf)
  exact
    { h with
      acks_eq := rfl
      frames_eq := rfl
      sorted := h.sorted.sublist hsub
      recognised := fun hmem ↦ h.recognised (hsub.subset hmem)
      frames_of_taken := fun htaken ↦
        have ⟨hnot, hlt⟩ := h.frames_of_taken htaken
        ⟨fun hmem ↦ hnot (hf.subset hmem), hf.length_le.trans_lt hlt⟩
      acks_of_not_taken := fun htaken ↦
        have ⟨hnot, hused⟩ := h.acks_of_not_taken htaken
        ⟨fun hmem ↦ hnot (((List.Sublist.refl _).append ha).subset hmem), hused⟩
      of_used := fun hused hmem ↦ h.of_used hused (hsub.subset hmem)
      count_le := (Nat.add_le_add_right (hsub.count_le true) _).trans h.count_le }

theorem Matches.sees_frameLost (h : t.Matches tries used incidents v w) (i : ℕ) :
    t.Sees tries used incidents { w with frames := w.frames.eraseIdx i } := by
  have hlose := h.lose (.refl v.acks) (List.eraseIdx_sublist (k := i) v.frames)
  rw [← List.eraseIdx_map, ← h.frames_eq, ← h.acks_eq] at hlose
  exact ⟨_, hlose⟩

theorem Matches.sees_ackLost (h : t.Matches tries used incidents v w) (i : ℕ) :
    t.Sees tries used incidents { w with acks := w.acks.eraseIdx i } := by
  have hlose := h.lose (List.eraseIdx_sublist (k := i) v.acks) (.refl v.frames)
  rw [← List.eraseIdx_map, ← h.frames_eq, ← h.acks_eq] at hlose
  exact ⟨_, hlose⟩

theorem Matches.sees_ackArrives (h : t.Matches tries used incidents v w) :
    t.Sees tries used (incidents ++ w.acks.head?.toList.map .packet)
      { w with acks := w.acks.tail } := by
  obtain ⟨arrived, acks, frames, taken⟩ := v
  cases acks with
  | nil =>
    have hacks : w.acks = [] := h.acks_eq
    refine ⟨⟨arrived, [], frames, taken⟩, ?_⟩
    rw [hacks]
    simpa using { h with acks_eq := rfl }
  | cons b acks =>
    have hacks : w.acks = t.ack b :: acks.map t.ack := h.acks_eq
    have hpipe : View.inFlight ⟨arrived ++ [b], acks, frames, taken⟩ =
        View.inFlight ⟨arrived, b :: acks, frames, taken⟩ := by
      simp [View.inFlight]
    refine ⟨⟨arrived ++ [b], acks, frames, taken⟩, ?_⟩
    rw [hacks]
    exact
      { h with
        open_eq := by simpa using h.open_eq
        arrived_eq := by simpa [Incident.packet?] using h.arrived_eq
        acks_eq := rfl
        sorted := hpipe ▸ h.sorted
        recognised := hpipe ▸ h.recognised
        acks_of_not_taken := by simpa using h.acks_of_not_taken
        of_used := hpipe ▸ h.of_used
        count_le := hpipe ▸ h.count_le }

theorem Matches.sees_arrive {arrived acks frames : List Bool} {taken b : Bool}
    (h : t.Matches tries used incidents ⟨arrived, acks, b :: frames, taken⟩ w) (taken' : Bool)
    {a : Acceptance}
    (haccept : (if taken then t.after else t.before).accept (t.header b) (t.part b) =
      (if taken' then t.after else t.before, a))
    (ha : a ≠ .dropped)
    (hdelivered : (if taken then t.completes.toList else []) ++ a.payload?.toList =
      if taken' then t.completes.toList else [])
    (hframes : taken' = true → false ∉ frames ∧ frames.length < tries)
    (hacks : taken' = false → taken = false ∧ b = false) :
    t.Sees tries used incidents w.arrive := by
  obtain ⟨r, haddress, hholds, harrive⟩ :=
    Channels.arrive_eq (t.links b) h.address_eq h.frames_eq h.holds haccept ha
  have hpipe : View.inFlight ⟨arrived, acks ++ [b], frames, taken'⟩ =
      View.inFlight ⟨arrived, acks, b :: frames, taken⟩ := by
    simp [View.inFlight]
  refine ⟨⟨arrived, acks ++ [b], frames, taken'⟩, ?_⟩
  rw [harrive]
  exact
    { h with
      address_eq := haddress
      holds := hholds
      delivered_eq := by
        rw [← hdelivered, ← List.append_assoc]
        exact congrArg (· ++ _) h.delivered_eq
      acks_eq := by
        rw [List.map_append]
        exact congrArg (· ++ _) h.acks_eq
      frames_eq := rfl
      sorted := hpipe ▸ h.sorted
      recognised := hpipe ▸ h.recognised
      frames_of_taken := hframes
      acks_of_not_taken := fun htaken ↦ by
        obtain ⟨rfl, rfl⟩ := hacks htaken
        simpa using h.acks_of_not_taken rfl
      of_used := hpipe ▸ h.of_used
      count_le := hpipe ▸ h.count_le }

theorem Matches.sees_frameArrives (h : t.Matches tries used incidents v w)
    (htries : tries ≤ t.sender.maxRetries + 1) : t.Sees tries used incidents w.arrive := by
  obtain ⟨arrived, acks, frames, taken⟩ := v
  cases frames with
  | nil =>
    have hframes : w.frames = [] := h.frames_eq
    have harrive : w.arrive = w := by rw [Channels.arrive, hframes]
    exact ⟨_, harrive.symm ▸ h⟩
  | cons b frames =>
    -- the first copy of the current frame is taken; whatever else arrives is recognised
    cases taken with
    | true =>
      obtain ⟨hnot, hlt⟩ := h.frames_of_taken rfl
      obtain ⟨hb, hframes⟩ := not_or.1 (List.mem_cons.not.1 hnot)
      obtain rfl : b = true := by simpa using Ne.symm hb
      rw [List.length_cons] at hlt
      obtain ⟨a, haccept, ha, hpayload⟩ := (t.recognises (by omega)).accept_eq
      exact h.sees_arrive true haccept ha (by simp [hpayload]) (fun _ ↦ ⟨hframes, by omega⟩)
        (by simp)
    | false =>
      cases b with
      | false =>
        obtain ⟨a, haccept, ha, hpayload⟩ := (h.recognised (by simp [View.inFlight])).accept_eq
        exact h.sees_arrive false haccept ha (by simp [hpayload]) (by simp) (by simp)
      | true =>
        have hframes : false ∉ frames := by
          have hsorted := (List.pairwise_append.1 (List.pairwise_append.1 h.sorted).2.1).2.1
          intro hmem
          exact absurd (List.rel_of_pairwise_cons hsorted hmem) (by decide)
        have hcount := h.count_le
        simp only [View.inFlight, List.count_append, List.count_cons_self] at hcount
        have hlength : frames.count true = frames.length :=
          List.count_eq_length.2 fun b hb ↦ by
            cases b
            · exact absurd hb hframes
            · rfl
        have haccept : t.before.accept (t.header true) (t.part true) =
            (t.after, .accepted t.completes) := t.accept_eq
        exact h.sees_arrive true haccept (by simp) (by simp [Acceptance.payload?])
          (fun _ ↦ ⟨hframes, by omega⟩) (by simp)

theorem Sees.happen (h : t.Sees tries used incidents w) (htries : tries ≤ t.sender.maxRetries + 1)
    (e : Happening) : t.Sees tries used (incidents ++ (w.happen e).2) (w.happen e).1 := by
  obtain ⟨v, h⟩ := h
  cases e with
  | frameLost i => simpa [Channels.happen] using h.sees_frameLost i
  | ackLost i => simpa [Channels.happen] using h.sees_ackLost i
  | frameArrives => simpa [Channels.happen] using h.sees_frameArrives htries
  | ackArrives => exact h.sees_ackArrives
  | disturbance e =>
    exact ⟨v, { h with
      open_eq := by simpa [Channels.happen] using h.open_eq
      arrived_eq := by
        simp [Channels.happen, Incident.packet?, List.filterMap_cons, h.arrived_eq] }⟩

theorem Sees.happenAll (h : t.Sees tries used incidents w)
    (htries : tries ≤ t.sender.maxRetries + 1) (happenings : List Happening) :
    t.Sees tries used (incidents ++ (w.happenAll happenings).2) (w.happenAll happenings).1 := by
  induction happenings generalizing incidents w with
  | nil => simpa [Channels.happenAll] using h
  | cons e rest ih =>
    rw [Channels.happenAll, ← List.append_assoc]
    exact ih (h.happen htries e)

theorem Sees.push (h : t.Sees tries used incidents w) (plan : List Try) :
    t.Sees (tries + 1) used incidents { w with plan, frames := w.frames ++ [t.frame true] } := by
  obtain ⟨v, h⟩ := h
  have hpipe : View.inFlight { v with frames := v.frames ++ [true] } = v.inFlight ++ [true] := by
    simp [View.inFlight]
  refine ⟨{ v with frames := v.frames ++ [true] }, ?_⟩
  exact
    { h with
      frames_eq := by simp [h.frames_eq]
      sorted := by
        rw [hpipe, List.pairwise_append]
        exact ⟨h.sorted, List.pairwise_singleton _ _,
          fun b _ c hc ↦ List.mem_singleton.1 hc ▸ Bool.le_true b⟩
      recognised := by simpa [hpipe] using h.recognised
      frames_of_taken := by simpa using h.frames_of_taken
      of_used := by simpa [hpipe] using h.of_used
      count_le := by
        have := h.count_le
        simp only [hpipe, List.count_append, List.count_singleton_self]
        omega }

theorem Sees.mono (h : t.Sees tries used incidents w) {tries' : ℕ} (hle : tries ≤ tries')
    (plan : List Try) :
    t.Sees tries' used incidents { w with plan } := by
  obtain ⟨v, h⟩ := h
  exact ⟨v, { h with
    frames_of_taken := fun htaken ↦ (h.frames_of_taken htaken).imp_right (Nat.lt_of_lt_of_le · hle)
    count_le := h.count_le.trans hle }⟩

theorem Sees.open_eq (h : t.Sees tries used incidents w) : .closing ∉ incidents := by
  obtain ⟨v, h⟩ := h
  exact h.open_eq

theorem Sees.quiet {e : DecodeError} (h : t.Sees tries used (.disturbance e :: incidents) w) :
    t.Sees tries used incidents w := by
  obtain ⟨v, h⟩ := h
  exact ⟨v, { h with
    open_eq := (not_or.1 (List.mem_cons.not.1 h.open_eq)).2
    arrived_eq := h.arrived_eq }⟩

theorem Sees.play (h : t.Sees tries used [] w) (htries : tries ≤ t.sender.maxRetries) :
    (∃ e, (w.play (t.frame true)).2 = .disturbed e ∧
      t.Sees (tries + 1) used [] (w.play (t.frame true)).1) ∨
      ∃ incidents, (w.play (t.frame true)).2 = .played incidents ∧
        t.Sees (tries + 1) used incidents (w.play (t.frame true)).1 := by
  unfold Channels.play
  cases hplan : w.plan with
  | nil =>
    exact .inr ⟨[], rfl, h.push []⟩
  | cons try' plan =>
    cases try' with
    | disturbed e => exact .inl ⟨e, rfl, h.mono (Nat.le_succ _) plan⟩
    | played happenings => exact .inr ⟨_, rfl, (h.push plan).happenAll (by omega) happenings⟩

theorem Sees.hear {packet : List UInt8} (h : t.Sees tries used (.packet packet :: incidents) w) :
    (packet = t.ack true ∧ t.Sees tries (used + 1) incidents w) ∨
      packet = t.ack false ∧ t.previous.1.index ≠ t.current.1.index ∧
        t.Sees tries used incidents w := by
  obtain ⟨⟨arrived, acks, frames, taken⟩, h⟩ := h
  have harrived := h.arrived_eq
  rw [List.filterMap_cons] at harrived
  cases arrived with
  | nil => cases harrived
  | cons b arrived =>
    obtain ⟨rfl, htail⟩ := List.cons.inj harrived
    have hpipe : View.inFlight ⟨b :: arrived, acks, frames, taken⟩ =
        b :: View.inFlight ⟨arrived, acks, frames, taken⟩ := rfl
    have hopen := (not_or.1 (List.mem_cons.not.1 h.open_eq)).2
    have hsorted := h.sorted
    have hcount := h.count_le
    rw [hpipe] at hsorted hcount
    have hrest : t.Matches tries used incidents ⟨arrived, acks, frames, taken⟩ w :=
      { h with
        open_eq := hopen
        arrived_eq := htail
        sorted := (List.pairwise_cons.1 hsorted).2
        recognised := fun hmem ↦ h.recognised (hpipe ▸ List.mem_cons_of_mem _ hmem)
        acks_of_not_taken := fun htaken ↦ (h.acks_of_not_taken htaken).imp_left fun hnot hmem ↦
          hnot (List.mem_cons_of_mem _ hmem)
        of_used := fun hused hmem ↦ h.of_used hused (hpipe ▸ List.mem_cons_of_mem _ hmem)
        count_le := (Nat.add_le_add_right (List.count_le_count_cons ..) _).trans hcount }
    cases b with
    -- nothing that is left of the frame before can be behind the acknowledgement of this one
    | true =>
      have htaken : taken = true := by
        by_contra htaken
        exact (h.acks_of_not_taken (Bool.not_eq_true _ ▸ htaken)).1 (by simp)
      refine .inl ⟨rfl, ⟨arrived, acks, frames, taken⟩, { hrest with
        acks_of_not_taken := fun hnot ↦ absurd (htaken.symm.trans hnot) (by decide)
        of_used := fun _ hmem ↦ absurd (List.rel_of_pairwise_cons hsorted hmem) (by decide)
        count_le := ?_ }⟩
      rw [List.count_cons_self] at hcount
      omega
    | false =>
      refine .inr ⟨rfl, ?_, ⟨_, hrest⟩⟩
      rw [t.index_eq]
      exact (h.recognised (by simp [hpipe])).1

end Transfer

/-- What a transfer leaves: copies of its frame, which the receiver recognises. -/
structure Channels.Rests (w : Channels) (source destination : UInt8) (last : MacHeader × List UInt8)
    (s : SourceState) (delivered : List (List UInt8)) : Prop where
  links : last.1.Links source destination
  address_eq : w.receiver.address = destination
  holds : w.receiver.Holds source s
  delivered_eq : w.delivered = delivered
  frames_eq : ∀ frame ∈ w.frames, frame = last.1.frame last.2
  acks_eq : ∀ ack ∈ w.acks, ack = last.1.acknowledgement.bytes
  recognised : w.frames ≠ [] ∨ w.acks ≠ [] → s.Recognises last.1 last.2

namespace Transfer

variable {t : Transfer} {tries used : ℕ} {incidents : List Incident} {w : Channels}

theorem sees_of_rests (h : w.Rests t.sender.address t.destination t.previous t.before t.delivered) :
    t.Sees 0 0 [] w := by
  refine ⟨⟨[], .replicate w.acks.length false, .replicate w.frames.length false, false⟩, ?_⟩
  exact
    { address_eq := h.address_eq
      holds := h.holds
      delivered_eq := by simp [h.delivered_eq]
      open_eq := List.not_mem_nil
      arrived_eq := rfl
      acks_eq := by
        rw [List.map_replicate]
        exact List.eq_replicate_of_mem h.acks_eq
      frames_eq := by
        rw [List.map_replicate]
        exact List.eq_replicate_of_mem h.frames_eq
      sorted := by simp [View.inFlight, List.pairwise_replicate]
      recognised := fun hmem ↦ h.recognised <| by
        by_contra hne
        simp only [not_or, not_not] at hne
        simp [View.inFlight, hne.1, hne.2] at hmem
      frames_of_taken := by simp
      acks_of_not_taken := by simp
      of_used := by simp
      count_le := by simp [View.inFlight, List.count_replicate] }

theorem Sees.rests (h : t.Sees tries used incidents w) (hused : 0 < used)
    (htries : tries ≤ t.sender.maxRetries + 1) :
    w.Rests t.sender.address t.destination t.current t.after
      (t.delivered ++ t.completes.toList) := by
  obtain ⟨⟨arrived, acks, frames, taken⟩, h⟩ := h
  obtain rfl : taken = true := by
    by_contra htaken
    have := (h.acks_of_not_taken (Bool.not_eq_true _ ▸ htaken)).2
    omega
  have hfresh := h.of_used hused
  have hcount := h.count_le
  simp only [View.inFlight, List.mem_append, not_or] at hfresh
  simp only [View.inFlight, List.count_append] at hcount
  have htrue : ∀ {xs : List Bool}, false ∉ xs → ∀ b ∈ xs, b = true := fun hxs b hb ↦ by
    cases b
    · exact absurd hb hxs
    · rfl
  have hlength : ∀ {xs : List Bool}, false ∉ xs → xs.count true = xs.length := fun hxs ↦
    List.count_eq_length.2 fun b hb ↦ (htrue hxs b hb).symm
  refine ⟨t.links_current, h.address_eq, h.holds, h.delivered_eq, ?_, ?_, fun hne ↦ t.recognises ?_⟩
  · intro frame hmem
    rw [h.frames_eq] at hmem
    obtain ⟨b, hb, rfl⟩ := List.mem_map.1 hmem
    rw [htrue hfresh.2.2 b hb]
    rfl
  · intro ack hmem
    rw [h.acks_eq] at hmem
    obtain ⟨b, hb, rfl⟩ := List.mem_map.1 hmem
    rw [htrue hfresh.2.1 b hb]
    rfl
  · rw [hlength hfresh.2.1, hlength hfresh.2.2] at hcount
    rw [h.frames_eq, h.acks_eq] at hne
    simp only [ne_eq, ← List.length_eq_zero_iff, List.length_map] at hne
    omega

end Transfer

namespace Channels.Rests

variable {w : Channels} {source destination : UInt8} {last : MacHeader × List UInt8}
  {s : SourceState}
  {delivered : List (List UInt8)}

theorem lose (h : w.Rests source destination last s delivered) {frames acks : List (List UInt8)}
    (hf : frames.Sublist w.frames) (ha : acks.Sublist w.acks) :
    Channels.Rests { w with frames, acks } source destination last s delivered :=
  { h with
    frames_eq := fun frame hmem ↦ h.frames_eq frame (hf.subset hmem)
    acks_eq := fun ack hmem ↦ h.acks_eq ack (ha.subset hmem)
    recognised := fun hne ↦ h.recognised (hne.imp
      (fun hne hnil ↦ hne (List.sublist_nil.1 (hnil ▸ hf)))
      fun hne hnil ↦ hne (List.sublist_nil.1 (hnil ▸ ha))) }

theorem happen (h : w.Rests source destination last s delivered) (e : Happening) :
    (w.happen e).1.Rests source destination last s delivered := by
  cases e with
  | frameLost i => exact h.lose (List.eraseIdx_sublist ..) (.refl _)
  | ackLost i => exact h.lose (.refl _) (List.eraseIdx_sublist ..)
  | ackArrives => exact h.lose (.refl _) (List.tail_sublist _)
  | disturbance e => exact h
  | frameArrives =>
    cases hframes : w.frames with
    | nil => simpa [Channels.happen, arrive, hframes] using h
    | cons frame frames =>
      obtain rfl := h.frames_eq frame (hframes ▸ List.mem_cons_self)
      have hrecognised := h.recognised (.inl (by simp [hframes]))
      obtain ⟨a, haccept, ha, hpayload⟩ := hrecognised.accept_eq
      obtain ⟨r, haddress, hholds, harrive⟩ :=
        arrive_eq h.links h.address_eq hframes h.holds haccept ha
      simp only [Channels.happen, harrive, hpayload]
      exact
        { links := h.links
          address_eq := haddress
          holds := hholds
          delivered_eq := by simp [h.delivered_eq]
          frames_eq := fun frame hmem ↦ h.frames_eq frame (hframes ▸ List.mem_cons_of_mem _ hmem)
          acks_eq := by
            intro ack hmem
            obtain hmem | hmem := List.mem_append.1 hmem
            · exact h.acks_eq ack hmem
            · exact List.mem_singleton.1 hmem
          recognised := fun _ ↦ hrecognised }

theorem happenAll (h : w.Rests source destination last s delivered) (happenings : List Happening) :
    (w.happenAll happenings).1.Rests source destination last s delivered := by
  induction happenings generalizing w with
  | nil => exact h
  | cons e rest ih => exact ih (h.happen e)

end Channels.Rests

end SoundLink
