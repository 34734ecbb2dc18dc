import SoundLink.Proofs.Delivery

namespace SoundLink

inductive Attempt
  | lost
  /-- The frame arrives, but its acknowledgement does not. -/
  | unheard
  /-- The frame arrives, and its acknowledgement while the sender still waits for it. -/
  | heard
  deriving DecidableEq

structure FarEnd where
  reassembler : Reassembler := .empty
  answers : List Acceptance := []
  /-- What becomes of the tries to come. Those beyond it are lost. -/
  plan : List Attempt

namespace FarEnd

def delivered (w : FarEnd) : List (List UInt8) := w.answers.filterMap Acceptance.payload?

/-- Takes a frame; acknowledges it unless it is dropped. -/
def arrive (w : FarEnd) (h : MacHeader) (part : List UInt8) : FarEnd × Option MacHeader :=
  let (reassembler, a) := w.reassembler.accept h part
  ({ w with reassembler, answers := w.answers ++ [a] },
    if a = .dropped then none else some h.acknowledgement)

def play (w : FarEnd) (frame : List UInt8) : FarEnd × Passage :=
  let later := { w with plan := w.plan.tail }
  match w.plan.headD .lost, MacHeader.parse frame with
  | .unheard, .ok (h, part) => ((later.arrive h part).1, .played [])
  | .heard, .ok (h, part) =>
    let (later, ack) := later.arrive h part
    (later, .played (ack.toList.map fun ack ↦ .packet ack.bytes))
  | _, _ => (later, .played [])

def medium : Medium FarEnd where
  play := play
  answer w _ := (w, [])

end FarEnd

/-- What comes out of payloads that are sent one after another: each in its turn, save that one may
be missing if its send failed. -/
inductive Emerges : List (List UInt8) → List (Except MacError Unit) → List (List UInt8) → Prop
  | nil : Emerges [] [] []
  | taken {payload : List UInt8} {result : Except MacError Unit} {payloads : List (List UInt8)}
      {results : List (Except MacError Unit)} {out : List (List UInt8)} :
      Emerges payloads results out →
      Emerges (payload :: payloads) (result :: results) (payload :: out)
  | missed {payload : List UInt8} {e : MacError} {payloads : List (List UInt8)}
      {results : List (Except MacError Unit)} {out : List (List UInt8)} :
      Emerges payloads results out → Emerges (payload :: payloads) (.error e :: results) out

namespace FarEnd

structure Stands (w : FarEnd) (source : UInt8) (s : SourceState) (out : List (List UInt8)) :
    Prop where
  held : w.reassembler.sources.get (Reassembler.slot source) = s
  not_dropped : .dropped ∉ w.answers
  delivered_eq : w.delivered = out

variable {w : FarEnd} {source destination : UInt8} {s s' : SourceState} {a : Acceptance}
  {out : List (List UInt8)} {f : MacHeader × List UInt8}

theorem Stands.arrive (h : w.Stands source s out) (hlinks : f.1.Links source destination)
    (haccept : s.accept f.1 f.2 = (s', a)) (ha : a ≠ .dropped) :
    (w.arrive f.1 f.2).1.Stands source s' (out ++ a.payload?.toList) ∧
      (w.arrive f.1 f.2).2 = some f.1.acknowledgement := by
  obtain ⟨hheld, hanswers, hout⟩ := h
  obtain rfl := hlinks.source_eq
  obtain ⟨r, hr, htaken⟩ := Reassembler.accept_eq hheld haccept
  simp only [FarEnd.arrive, htaken, if_neg ha]
  refine ⟨⟨hr, ?_, ?_⟩, trivial⟩
  · simpa using ⟨hanswers, ha.symm⟩
  · rw [← hout]
    cases hpayload : a.payload? with
    | none => simp [delivered, hpayload]
    | some payload => simp [delivered, hpayload]

theorem Stands.play (h : w.Stands source s out) (hlinks : f.1.Links source destination)
    (haccept : s.accept f.1 f.2 = (s', a)) (ha : a ≠ .dropped) :
    (w.play (f.1.frame f.2)).1.Stands source s out ∧ (w.play (f.1.frame f.2)).2 = .played [] ∨
      (w.play (f.1.frame f.2)).1.Stands source s' (out ++ a.payload?.toList) ∧
        ((w.play (f.1.frame f.2)).2 = .played [] ∨
          (w.play (f.1.frame f.2)).2 = .played [.packet f.1.acknowledgement.bytes]) := by
  have hparse := MacHeader.parse_frame hlinks.source_le hlinks.destination_le f.2
  have hlater : Stands { w with plan := w.plan.tail } source s out :=
    ⟨h.held, h.not_dropped, h.delivered_eq⟩
  obtain ⟨harrive, hack⟩ := hlater.arrive hlinks haccept ha
  unfold FarEnd.play
  rw [hparse]
  cases w.plan.headD .lost with
  | lost => exact .inl ⟨hlater, rfl⟩
  | unheard => exact .inr ⟨harrive, .inl rfl⟩
  | heard =>
    refine .inr ⟨harrive, .inr ?_⟩
    dsimp only
    rw [hack]
    rfl

end FarEnd

/-- The transfer of a frame that the far end takes once, and recognises when it comes again. -/
structure Crossing (sender : Station) (destination : UInt8) (f : MacHeader × List UInt8)
    (before after : SourceState) (completes : Option (List UInt8)) : Prop where
  links : f.1.Links sender.address destination
  accept_eq : before.accept f.1 f.2 = (after, .accepted completes)
  recognises : after.Recognises f.1 f.2

namespace Crossing

variable {sender : Station} {destination : UInt8} {f : MacHeader × List UInt8}
  {before after : SourceState} {completes : Option (List UInt8)} {out : List (List UInt8)}

theorem accept_cases (h : Crossing sender destination f before after completes) (taken : Bool) :
    ∃ a, (if taken then after else before).accept f.1 f.2 = (after, a) ∧ a ≠ .dropped ∧
      (if taken then completes.toList else []) ++ a.payload?.toList = completes.toList := by
  cases taken with
  | false => exact ⟨.accepted completes, h.accept_eq, nofun, rfl⟩
  | true =>
    obtain ⟨a, haccept, ha, hpayload⟩ := h.recognises.accept_eq
    exact ⟨a, haccept, ha, by rw [hpayload]; simp⟩

theorem upholds (h : Crossing sender destination f before after completes)
    (out : List (List UInt8)) :
    Session.Upholds FarEnd.medium sender f fun _ heard incidents w ↦
      ∃ taken, w.Stands sender.address (if taken then after else before)
          (out ++ if taken then completes.toList else []) ∧
        (heard = true → taken = true) ∧
        (incidents = [] ∨ taken = true ∧ incidents = [.packet f.1.acknowledgement.bytes]) where
  play := by
    rintro tries heard w - ⟨taken, hstands, hheard, -⟩
    obtain ⟨a, haccept, ha, hout⟩ := h.accept_cases taken
    refine .inr ?_
    obtain ⟨hlost, hplay⟩ | ⟨htaken, hplay⟩ := hstands.play h.links haccept ha
    · exact ⟨[], hplay, taken, hlost, hheard, .inl rfl⟩
    · rw [List.append_assoc, hout] at htaken
      obtain hplay | hplay := hplay
      · exact ⟨_, hplay, true, htaken, fun _ ↦ rfl, .inl rfl⟩
      · exact ⟨_, hplay, true, htaken, fun _ ↦ rfl, .inr ⟨rfl, rfl⟩⟩
  not_closing := by
    rintro tries heard incidents w ⟨taken, -, -, hincidents | ⟨-, hincidents⟩⟩
    · cases hincidents
    · cases hincidents
  disturbance := by
    rintro tries heard e incidents w ⟨taken, -, -, hincidents | ⟨-, hincidents⟩⟩
    · cases hincidents
    · cases hincidents
  packet := by
    rintro tries heard packet incidents w ⟨taken, hstands, -, hincidents | ⟨htaken, hincidents⟩⟩
    · cases hincidents
    · cases hincidents
      rw [h.links.destination_eq]
      exact ⟨f.1, h.links, rfl, taken, hstands, fun _ ↦ htaken, .inl rfl⟩

theorem transmit (h : Crossing sender destination f before after completes)
    (hopen : sender.closed = false) {w : Session FarEnd}
    (hstation : w.station.atRest = sender.atRest)
    (hw : w.medium.Stands sender.address before out) :
    (w.transmit FarEnd.medium f.1 f.2).1.station.atRest = sender.atRest ∧
      ∃ taken, (w.transmit FarEnd.medium f.1 f.2).1.medium.Stands sender.address
          (if taken then after else before) (out ++ if taken then completes.toList else []) ∧
        ((w.transmit FarEnd.medium f.1 f.2).2 = .ok () → taken = true) := by
  have hstart : w.medium.Stands sender.address (if false then after else before)
      (out ++ if false then completes.toList else []) := by simpa using hw
  obtain ⟨hrest, -, -, heard, ⟨taken, hstands, hheard, -⟩, hok⟩ :=
    (h.upholds out).transmit hopen hstation ⟨false, hstart, nofun, .inl rfl⟩
  exact ⟨hrest, taken, hstands, fun h ↦ hheard (hok h)⟩

end Crossing

namespace SourceState

variable {s b : SourceState} {f : MacHeader × List UInt8}

def Renewable (s : SourceState) : Prop := s.held = [] → s.expected = 0

theorem Renewable.accept_eq (h : s.Renewable) (hindex : f.1.index = 0) :
    s.accept f.1 f.2 = take ⟨0, [], s.lastTaken⟩ f.1 f.2 := by
  obtain ⟨expected, held, lastTaken⟩ := s
  rw [accept]
  by_cases hheld : held = []
  · have hexpected : expected = 0 := h hheld
    simp [hheld, hexpected, hindex]
  · simp [hheld, hindex, take]

theorem Renewable.of_take (hb : b.Renewable) (hne : f.2 ≠ []) (taken : Bool) :
    (if taken then (s.take f.1 f.2).1 else b).Renewable := by
  cases taken with
  | false => exact hb
  | true =>
    intro hheld
    cases hlast : f.1.isLast with
    | true =>
      rw [if_pos rfl, take_of_last hlast]
    | false =>
      rw [if_pos rfl, take_of_not_last hlast] at hheld
      exact absurd (List.append_eq_nil_iff.1 hheld).2 hne

theorem Expects.crossing {sender : Station} {destination : UInt8} (h : s.Expects f)
    (hlinks : f.1.Links sender.address destination) (hsingle : ¬(f.1.index = 0 ∧ f.1.isLast = true))
    (hnext : b.accept f.1 f.2 = s.take f.1 f.2) :
    Crossing sender destination f b (s.take f.1 f.2).1 (s.take f.1 f.2).2.payload? where
  links := hlinks
  accept_eq := by
    rw [hnext, take]
    split_ifs <;> rfl
  recognises := recognises_take h.part_ne h.held_eq hsingle

end SourceState

namespace FarEnd

variable {sender : Station} {destination : UInt8} {s b : SourceState}
  {frames : List (MacHeader × List UInt8)} {payload : List UInt8} {payloads : List (List UInt8)}
  {out : List (List UInt8)} {w : Session FarEnd}

/-- The frames that are left of a payload. The far end need not hold what they follow on, as long as
it treats the next one as if it did. -/
theorem transmitAll (hcompletes : s.Completes frames payload) (hopen : sender.closed = false)
    (hlinks : ∀ f ∈ frames, f.1.Links sender.address destination)
    (hsingle : ∀ f ∈ frames, ¬(f.1.index = 0 ∧ f.1.isLast = true))
    (hb : b.Renewable) (hnext : ∀ f ∈ frames.head?, b.accept f.1 f.2 = s.take f.1 f.2)
    (hstation : w.station.atRest = sender.atRest)
    (hw : w.medium.Stands sender.address b out) :
    (w.transmitAll medium frames).1.station.atRest = sender.atRest ∧ ∃ b' taken, b'.Renewable ∧
      (w.transmitAll medium frames).1.medium.Stands sender.address b'
        (out ++ if taken then [payload] else []) ∧
      ((w.transmitAll medium frames).2 = .ok () → taken = true) := by
  induction hcompletes generalizing b w with
  | @last s f hf hlast =>
    have hcross := hf.crossing (hlinks f List.mem_cons_self) (hsingle f List.mem_cons_self)
      (hnext f rfl)
    obtain ⟨hrest, taken, hstands, hok⟩ := hcross.transmit hopen hstation hw
    have hrenewable := hb.of_take (s := s) hf.part_ne taken
    have hpayload : (s.take f.1 f.2).2.payload? = some (s.held ++ f.2) := by
      rw [SourceState.take_of_last hlast]
      rfl
    rw [hpayload] at hstands
    rw [Session.transmitAll_cons]
    cases hresult : (w.transmit medium f.1 f.2).2 with
    | error e => exact ⟨hrest, _, taken, hrenewable, hstands, by simp⟩
    | ok => exact ⟨hrest, _, taken, hrenewable, hstands, fun _ ↦ hok hresult⟩
  | @more s f frames payload hf hlast hframes ih =>
    have hcross := hf.crossing (hlinks f List.mem_cons_self) (hsingle f List.mem_cons_self)
      (hnext f rfl)
    obtain ⟨hrest, taken, hstands, hok⟩ := hcross.transmit hopen hstation hw
    have hrenewable := hb.of_take (s := s) hf.part_ne taken
    have hpayload : (s.take f.1 f.2).2.payload? = none := by
      rw [SourceState.take_of_not_last hlast]
      rfl
    rw [hpayload, Option.toList_none, ite_self, List.append_nil] at hstands
    rw [Session.transmitAll_cons]
    cases hresult : (w.transmit medium f.1 f.2).2 with
    | error e => exact ⟨hrest, _, false, hrenewable, by simpa using hstands, by simp⟩
    | ok =>
      obtain rfl := hok hresult
      refine ih (fun f hf ↦ hlinks f (List.mem_cons_of_mem _ hf))
        (fun f hf ↦ hsingle f (List.mem_cons_of_mem _ hf)) hrenewable ?_ hrest hstands
      intro g hg
      cases frames with
      | nil => cases hg
      | cons next frames =>
        obtain rfl : next = g := by simpa using hg
        exact hframes.expects.accept_eq

theorem send (hready : sender.Ready destination)
    (hmany : (sender.frames destination payload).length ∈ Set.Icc 2 maxFrames)
    (hb : b.Renewable) (hstation : w.station.atRest = sender.atRest)
    (hw : w.medium.Stands sender.address b out) :
    (w.send medium destination payload).1.station.atRest = sender.atRest ∧ ∃ b' taken,
      b'.Renewable ∧ (w.send medium destination payload).1.medium.Stands sender.address b'
        (out ++ if taken then [payload] else []) ∧
      ((w.send medium destination payload).2 = .ok () → taken = true) := by
  have hbytes := hready.bytes_pos
  rw [Station.length_frames hbytes] at hmany
  obtain ⟨hlow, hhigh⟩ := hmany
  have hle := (chunkCount_le_iff hbytes _ _).1 hhigh
  have hlt : sender.bytesPerFrame < payload.length := by
    by_contra hnot
    have := (chunkCount_le_iff hbytes 1 payload.length).2 (by omega)
    omega
  have hne : payload ≠ [] := List.ne_nil_of_length_pos (by omega)
  have hcompletes := SourceState.Fresh.completes (s := ⟨0, [], b.lastTaken⟩) ⟨rfl, rfl⟩ hbytes hne
    hle destination
  have hfirst : ∀ f ∈ (sender.frames destination payload).head?,
      b.accept f.1 f.2 = SourceState.take ⟨0, [], b.lastTaken⟩ f.1 f.2 := by
    intro f hf
    cases hcons : sender.frames destination payload with
    | nil =>
      rw [hcons] at hf
      cases hf
    | cons g frames =>
      rw [hcons] at hf hcompletes
      obtain rfl : g = f := by simpa using hf
      exact hb.accept_eq hcompletes.expects.index_eq
  obtain ⟨w', remarks, hstation', hmedium, hsend⟩ :=
    Session.send_eq medium hstation hready.destination_le hne
  have hsent := transmitAll (w := w') hcompletes hready.sender_open (fun f hf ↦ hready.links hf)
    (fun f hf ↦ Station.not_single_of_mem_frames hbytes hlt hle hf) hb hfirst
    (hstation' ▸ hstation) (hmedium ▸ hw)
  rw [hsend]
  exact hsent

theorem sendAll (hready : sender.Ready destination)
    (hmany : ∀ p ∈ payloads, (sender.frames destination p).length ∈ Set.Icc 2 maxFrames)
    (hb : b.Renewable) (hstation : w.station.atRest = sender.atRest)
    (hw : w.medium.Stands sender.address b out) :
    ∃ b' new, Emerges payloads (w.sendAll medium destination payloads).2 new ∧
      (w.sendAll medium destination payloads).1.medium.Stands sender.address b' (out ++ new) := by
  induction payloads generalizing w b out with
  | nil => exact ⟨b, [], .nil, by simpa [Session.sendAll] using hw⟩
  | cons payload payloads ih =>
    obtain ⟨hrest, b', taken, hb', hstands, hok⟩ :=
      send hready (hmany payload List.mem_cons_self) hb hstation hw
    obtain ⟨b'', new, hemerges, hall⟩ :=
      ih (fun p hp ↦ hmany p (List.mem_cons_of_mem _ hp)) hb' hrest hstands
    rw [Session.sendAll]
    cases taken with
    | true => exact ⟨b'', payload :: new, .taken hemerges, by simpa using hall⟩
    | false =>
      refine ⟨b'', new, ?_, by simpa using hall⟩
      dsimp only
      cases hresult : (w.send medium destination payload).2 with
      | error e => exact .missed hemerges
      | ok => cases hok hresult

end FarEnd

/-- Payloads that take several frames come out in their turns whatever becomes of the tries, each at
most once, and once if its send succeeded. -/
theorem Station.Ready.emerges {sender : Station} {destination : UInt8}
    {payloads : List (List UInt8)} (h : sender.Ready destination)
    (hmany : ∀ p ∈ payloads, (sender.frames destination p).length ∈ Set.Icc 2 maxFrames)
    (plan : List Attempt) :
    let w := Session.sendAll FarEnd.medium ⟨sender, { plan }, []⟩ destination payloads
    Emerges payloads w.2 w.1.medium.delivered ∧ .dropped ∉ w.1.medium.answers := by
  have hempty : (Reassembler.empty.sources.get (Reassembler.slot sender.address) : SourceState) =
      {} := by simp [Reassembler.empty, Vector.get]
  have hstart : FarEnd.Stands { plan } sender.address {} [] :=
    ⟨hempty, List.not_mem_nil, rfl⟩
  obtain ⟨b, new, hemerges, hstands⟩ :=
    FarEnd.sendAll (w := ⟨sender, { plan }, []⟩) h hmany (fun _ ↦ rfl) rfl hstart
  intro w
  rw [hstands.delivered_eq]
  exact ⟨hemerges, hstands.not_dropped⟩

/-- The last frame of the first payload is never acknowledged, and the payload comes out all the
same; the first frame of the second one is lost. -/
theorem Station.Ready.emerges_unheard :
    let sender := ofConfig { bytesPerFrame := 2, maxRetries := 1 }
    let payloads := [[1, 2, 3], [4, 5, 6], [7, 8, 9, 10, 11]]
    let plan := [.heard, .unheard, .unheard, .lost, .lost, .unheard, .heard, .heard, .heard]
    let w := Session.sendAll FarEnd.medium ⟨sender, { plan }, []⟩ 1 payloads
    (Emerges payloads w.2 w.1.medium.delivered ∧ .dropped ∉ w.1.medium.answers) ∧
      w.2.map Except.isOk = [false, false, true] ∧
      w.1.medium.delivered = [[1, 2, 3], [7, 8, 9, 10, 11]] := by
  have hready : (ofConfig { bytesPerFrame := 2, maxRetries := 1 }).Ready 1 :=
    ⟨rfl, by decide, by decide, by decide⟩
  refine ⟨hready.emerges ?_ _, by decide +kernel, by decide +kernel⟩
  simp only [Station.length_frames hready.bytes_pos]
  decide

end SoundLink
