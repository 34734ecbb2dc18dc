import SoundLink.Proofs.Traffic

namespace SoundLink

structure SourceState.Leaves (s : SourceState) (source destination : UInt8)
    (payloads : List (List UInt8)) (x : MacHeader × List UInt8) : Prop where
  state_eq : s = ⟨0, [], some x.1.index⟩
  links : x.1.Links source destination
  last : x.1.isLast = true
  single : x.1.index = 0 → x.2 ∈ payloads

/-- Between two payloads, the one before having been taken or nothing being in flight. -/
def Between (source destination : UInt8) (payloads : List (List UInt8)) : Traffic :=
  fun s acked frames ↦
    s.Renewable ∧ ∀ x ∈ acked ++ frames, s.Leaves source destination payloads x

section

variable {source destination : UInt8} {payloads : List (List UInt8)} {s s₀ : SourceState}
  {acked frames : List (MacHeader × List UInt8)} {f g x : MacHeader × List UInt8}

theorem SourceState.Leaves.accept (h : s.Leaves source destination payloads x) :
    ∃ a, s.accept x.1 x.2 = (s, a) ∧ a ≠ .dropped ∧ ∀ p ∈ a.payload?, p ∈ payloads := by
  obtain ⟨rfl, -, hlast, hsingle⟩ := h
  by_cases hindex : x.1.index = 0
  · refine ⟨.accepted (some x.2), ?_, by simp, ?_⟩
    · simp [SourceState.accept, take, hindex, hlast]
    · simpa [Acceptance.payload?] using hsingle hindex
  · refine ⟨.duplicate, ?_, by simp, by simp [Acceptance.payload?]⟩
    simp [SourceState.accept, hindex]

theorem harmless_between : (Between source destination payloads).Harmless source destination
    payloads where
  lose := fun ⟨hs, hall⟩ ha hf ↦ ⟨hs, fun x hx ↦ hall x ((ha.append hf).subset hx)⟩
  arrive := by
    rintro s acked x frames ⟨hs, hall⟩
    obtain ⟨a, haccept, ha, hpayload⟩ := (hall x (by simp)).accept
    refine ⟨s, a, haccept, ⟨hs, ?_⟩, hpayload⟩
    rw [if_neg ha, List.append_assoc]
    exact hall
  links := fun ⟨_, hall⟩ x hx ↦ (hall x hx).links
  renewable := fun h ↦ h.1

/-- Within a payload the receiver holds what comes before the next frame, or it has missed the first
one, whose acknowledgement was mistaken; what is older is a copy of the frame before or a
payload. -/
def Within (source destination : UInt8) (payloads : List (List UInt8)) (s : SourceState)
    (g : MacHeader × List UInt8) : Traffic := fun s' acked frames ↦
  (s' = s ∨ s' = ⟨0, [], some 0⟩) ∧ ∀ x ∈ acked ++ frames,
    x = g ∨ SourceState.Leaves ⟨0, [], some 0⟩ source destination payloads x

def Past (source destination : UInt8) (payloads : List (List UInt8)) (s : SourceState)
    (f : MacHeader × List UInt8) : Traffic :=
  if f.1.isLast then Between source destination payloads else Within source destination payloads s f

namespace SourceState

theorem take_eq_of_held (h : s.held = s₀.held) (header : MacHeader) (part : List UInt8) :
    s.take header part = s₀.take header part := by
  unfold take
  rw [h]

theorem take_cases (hlast : f.1.isLast = true → s.held ++ f.2 ∈ payloads) :
    (s.take f.1 f.2).2 ≠ .dropped ∧ ∀ p ∈ (s.take f.1 f.2).2.payload?, p ∈ payloads := by
  cases h : f.1.isLast with
  | false =>
    rw [take_of_not_last h]
    exact ⟨nofun, nofun⟩
  | true =>
    rw [take_of_last h]
    exact ⟨nofun, by simpa [Acceptance.payload?] using hlast h⟩

theorem Recognises.accept_again (h : s.Recognises f.1 f.2) (payloads : List (List UInt8)) :
    ∃ a, s.accept f.1 f.2 = (s, a) ∧ a ≠ .dropped ∧ ∀ p ∈ a.payload?, p ∈ payloads := by
  obtain ⟨a, haccept, ha, hpayload⟩ := h.accept_eq
  refine ⟨a, haccept, ha, ?_⟩
  rw [hpayload]
  exact nofun

end SourceState

def Leg.first (hs : s.Renewable) (hf : SourceState.Expects {} f)
    (hlinks : f.1.Links source destination) (hsingle : f.1.isLast = true → f.2 ∈ payloads) :
    Leg source destination payloads where
  frame := f
  waiting := (· = s)
  taken := (SourceState.take {} f.1 f.2).1
  old := s.Leaves source destination payloads
  links := hlinks
  links_old := fun x hx ↦ hx.links
  renewable := by
    rintro s' rfl
    exact hs
  renewable_taken := hs.of_take (s := {}) hf.part_ne true
  accept_old := by
    rintro s' rfl x hx
    obtain ⟨a, haccept, -, hpayload⟩ := hx.accept
    exact ⟨s', a, haccept, rfl, hpayload⟩
  accept_frame := by
    rintro s' rfl
    obtain ⟨ha, hpayload⟩ := SourceState.take_cases (s := {}) hsingle
    refine ⟨_, hpayload, .inl ⟨?_, ha⟩⟩
    rw [hs.accept_eq hf.index_eq]
    exact SourceState.take_eq_of_held rfl ..
  accept_again := by
    by_cases h : f.1.index = 0 ∧ f.1.isLast = true
    · obtain ⟨-, hlast⟩ := h
      have hleaves : SourceState.Leaves (SourceState.take {} f.1 f.2).1 source destination payloads
          f := by
        refine ⟨?_, hlinks, hlast, fun _ ↦ hsingle hlast⟩
        rw [SourceState.take_of_last hlast]
      exact hleaves.accept
    · exact (SourceState.recognises_take hf.part_ne hf.held_eq h).accept_again payloads

structure SourceState.Follows (s : SourceState) (g f : MacHeader × List UInt8) : Prop where
  previous : ∃ s₀ : SourceState, s₀.Expects g ∧ s = (s₀.take g.1 g.2).1
  not_last : g.1.isLast = false
  expects : s.Expects f

namespace SourceState.Follows

theorem held_ne (h : s.Follows g f) : s.held ≠ [] := by
  obtain ⟨⟨s₀, hg, rfl⟩, hlast, -⟩ := h
  rw [take_of_not_last hlast]
  simp [hg.part_ne]

theorem index_ne (h : s.Follows g f) : f.1.index ≠ 0 :=
  fun hindex ↦ h.held_ne (h.expects.held_eq hindex)

theorem recognises (h : s.Follows g f) : s.Recognises g.1 g.2 := by
  obtain ⟨⟨s₀, hg, rfl⟩, hlast, -⟩ := h
  exact recognises_take hg.part_ne hg.held_eq (by simp [hlast])

/-- Where the first frame was missed, the one before is either that frame or dropped. -/
theorem accept_missed (h : s.Follows g f) :
    SourceState.accept ⟨0, [], some 0⟩ g.1 g.2 = (s, .accepted none) ∨
      SourceState.accept ⟨0, [], some 0⟩ g.1 g.2 = (⟨0, [], some 0⟩, .dropped) := by
  obtain ⟨⟨s₀, hg, rfl⟩, hlast, -⟩ := h
  by_cases hindex : g.1.index = 0
  · left
    have hheld := hg.held_eq hindex
    rw [accept_of_expected hindex fun _ ↦ rfl, take_of_not_last hlast, take_of_not_last hlast,
      hheld]
  · right
    simp [accept, hindex, Ne.symm hindex]

theorem accept_late (h : s.Follows g f)
    (hx : Leaves ⟨0, [], some 0⟩ source destination payloads x) :
    s.accept x.1 x.2 = (⟨0, [], some 0⟩, .accepted (some x.2)) := by
  have hindex : x.1.index = 0 := by simpa using hx.state_eq.symm
  rw [accept, if_pos ⟨hindex, h.held_ne⟩, take_of_last hx.last, hindex]
  rfl

end SourceState.Follows

def Leg.next (h : s.Follows g f) (hlinks : f.1.Links source destination)
    (hlinks' : g.1.Links source destination)
    (hlast : f.1.isLast = true → s.held ++ f.2 ∈ payloads) : Leg source destination payloads where
  frame := f
  waiting s' := s' = s ∨ s' = ⟨0, [], some 0⟩
  taken := (s.take f.1 f.2).1
  old x := x = g ∨ SourceState.Leaves ⟨0, [], some 0⟩ source destination payloads x
  links := hlinks
  links_old := by
    rintro x (rfl | hx)
    · exact hlinks'
    · exact hx.links
  renewable := by
    rintro s' (rfl | rfl)
    · exact fun hheld ↦ absurd hheld h.held_ne
    · exact fun _ ↦ rfl
  renewable_taken := SourceState.Renewable.of_take (b := {}) (fun _ ↦ rfl) h.expects.part_ne true
  accept_old := by
    rintro s' (rfl | rfl) x (rfl | hx)
    · obtain ⟨a, haccept, -, hpayload⟩ := h.recognises.accept_again payloads
      exact ⟨s', a, haccept, .inl rfl, hpayload⟩
    · refine ⟨_, _, h.accept_late hx, .inr rfl, ?_⟩
      have hindex : x.1.index = 0 := by simpa using hx.state_eq.symm
      simpa [Acceptance.payload?] using hx.single hindex
    · obtain haccept | haccept := h.accept_missed
      · exact ⟨_, _, haccept, .inl rfl, nofun⟩
      · exact ⟨_, _, haccept, .inr rfl, nofun⟩
    · obtain ⟨a, haccept, -, hpayload⟩ := hx.accept
      exact ⟨_, a, haccept, .inr rfl, hpayload⟩
  accept_frame := by
    rintro s' (rfl | rfl)
    · obtain ⟨ha, hpayload⟩ := SourceState.take_cases hlast
      exact ⟨_, hpayload, .inl ⟨h.expects.accept_eq, ha⟩⟩
    · have hindex := h.index_ne
      refine ⟨.dropped, nofun, .inr ⟨?_, rfl⟩⟩
      simp [SourceState.accept, hindex, hindex.symm]
  accept_again := by
    have hsingle : ¬(f.1.index = 0 ∧ f.1.isLast = true) := fun hsingle ↦ h.index_ne hsingle.1
    exact (SourceState.recognises_take h.expects.part_ne h.expects.held_eq hsingle).accept_again
      payloads

namespace Leg

variable {t : Leg source destination payloads} {s' : SourceState}

theorem Pipe.cases (h : t.Pipe s acked frames) :
    (t.waiting s ∨ s = t.taken) ∧ ∀ x ∈ acked ++ frames, t.old x ∨ x = t.frame := by
  rcases h with ⟨hs, hacked, hold, hcopies⟩ | ⟨hold, hacked, hcopies⟩
  · exact ⟨.inl hs, List.forall_mem_append.2 ⟨fun x hx ↦ .inl (hacked x hx),
      List.forall_mem_append.2 ⟨fun x hx ↦ .inl (hold x hx), fun x hx ↦ .inr (hcopies x hx)⟩⟩⟩
  · exact ⟨.inr rfl, List.forall_mem_append.2 ⟨List.forall_mem_append.2
      ⟨fun x hx ↦ .inl (hold x hx), fun x hx ↦ .inr (hacked x hx)⟩, fun x hx ↦ .inr (hcopies x hx)⟩⟩

theorem Settled.past (h : t.Settled s acked frames)
    (hleaves : t.frame.1.isLast = true → t.taken.Leaves source destination payloads t.frame) :
    Past source destination payloads t.taken t.frame s acked frames := by
  obtain ⟨rfl, hall⟩ := h
  unfold Past
  split_ifs with hlast
  · refine ⟨t.renewable_taken, fun x hx ↦ ?_⟩
    rw [hall x hx]
    exact hleaves hlast
  · exact ⟨.inl rfl, fun x hx ↦ .inl (hall x hx)⟩

theorem past_first (hs : s.Renewable) (hf : SourceState.Expects {} f)
    (hlinks : f.1.Links source destination) (hsingle : f.1.isLast = true → f.2 ∈ payloads)
    (h : (first hs hf hlinks hsingle).Known true s' acked frames) :
    Past source destination payloads (SourceState.take {} f.1 f.2).1 f s' acked frames := by
  have hindex : f.1.index = 0 := hf.index_eq
  have hleaves : f.1.isLast = true →
      SourceState.Leaves ⟨0, [], some 0⟩ source destination payloads f :=
    fun hlast ↦ ⟨by rw [hindex], hlinks, hlast, fun _ ↦ hsingle hlast⟩
  have htaken : f.1.isLast = true → (SourceState.take {} f.1 f.2).1 = ⟨0, [], some 0⟩ := by
    intro hlast
    rw [SourceState.take_of_last hlast, hindex]
  by_cases hdistinct : (first hs hf hlinks hsingle).Distinct
  · refine (h.2 rfl hdistinct).past fun hlast ↦ ?_
    change (SourceState.take {} f.1 f.2).1.Leaves source destination payloads f
    rw [htaken hlast]
    exact hleaves hlast
  -- what was acknowledged may be the payload before, of a single frame too
  · have hstate : s = ⟨0, [], some 0⟩ := by
      simp only [Distinct, not_forall, not_not] at hdistinct
      obtain ⟨x, hx, hxindex⟩ := hdistinct
      rw [hx.state_eq, hxindex.trans hindex]
    subst hstate
    obtain ⟨hs', hall⟩ := h.1.cases
    unfold Past
    split_ifs with hlast
    · obtain rfl : s' = ⟨0, [], some 0⟩ := by
        obtain rfl | rfl := hs'
        · rfl
        · exact htaken hlast
      refine ⟨hs, fun x hx ↦ ?_⟩
      obtain hx | rfl := hall x hx
      · exact hx
      · exact hleaves hlast
    · exact ⟨hs'.symm, fun x hx ↦ (hall x hx).symm⟩

theorem past_next (hfollows : s.Follows g f) (hlinks : f.1.Links source destination)
    (hlinks' : g.1.Links source destination)
    (hpayload : f.1.isLast = true → s.held ++ f.2 ∈ payloads)
    (h : (next hfollows hlinks hlinks' hpayload).Known true s' acked frames) :
    Past source destination payloads (s.take f.1 f.2).1 f s' acked frames := by
  have hdistinct : (next hfollows hlinks hlinks' hpayload).Distinct := by
    rintro x (rfl | hx)
    · change x.1.index ≠ f.1.index
      rw [hfollows.expects.index_eq]
      exact hfollows.recognises.1
    · change x.1.index ≠ f.1.index
      have hindex : x.1.index = 0 := by simpa using hx.state_eq.symm
      rw [hindex]
      exact hfollows.index_ne.symm
  refine (h.2 rfl hdistinct).past fun hlast ↦ ?_
  refine ⟨?_, hlinks, hlast, fun hindex ↦ absurd hindex hfollows.index_ne⟩
  exact congrArg Prod.fst (SourceState.take_of_last hlast _)

end Leg

end

namespace Session

def pause (w : Session Channels) (happenings : List Happening) : Session Channels :=
  let (medium, incidents) := w.medium.happenAll happenings
  (incidents.filterMap Incident.packet?).foldl (hear Channels.medium) { w with medium }

/-- Sends payloads with a pause after each; hands out the result of each send with what is in flight
after the pause. -/
def sendPaced (w : Session Channels) (destination : UInt8) : List (List UInt8 × List Happening) →
    Session Channels × List (Except MacError Unit × List (List UInt8))
  | [] => (w, [])
  | (payload, happenings) :: rest =>
    let (w, result) := w.send Channels.medium destination payload
    let w := w.pause happenings
    let inFlight := w.medium.frames ++ w.medium.acks
    let (w, outcomes) := w.sendPaced destination rest
    (w, (result, inFlight) :: outcomes)

structure Over (sent : Session Channels × Except MacError Unit) (sender : Station)
    (destination : UInt8) (payloads : List (List UInt8)) (R : Traffic) : Prop where
  station_eq : sent.1.station.atRest = sender.atRest
  harmless : ∃ R' : Traffic, R'.Harmless sender.address destination payloads ∧
    sent.1.medium.Bears sender.address destination payloads R' []
  of_ok : sent.2 = .ok () → sent.1.medium.Bears sender.address destination payloads R []

variable {sender : Station} {destination : UInt8} {payloads : List (List UInt8)} {s : SourceState}
  {frames : List (MacHeader × List UInt8)} {payload : List UInt8} {f g : MacHeader × List UInt8}
  {w : Session Channels} {R R' : Traffic}

theorem Over.transmit (t : Leg sender.address destination payloads) (hopen : sender.closed = false)
    (hstation : w.station.atRest = sender.atRest)
    (hw : w.medium.Bears sender.address destination payloads (t.Known false) [])
    (hR : ∀ {s acked frames}, t.Known true s acked frames → R s acked frames) :
    Over (w.transmit Channels.medium t.frame.1 t.frame.2) sender destination payloads R := by
  obtain ⟨hrest, heard, hbears, hheard⟩ := t.transmit hopen hstation hw
  refine ⟨hrest, ⟨_, t.harmless_known heard, hbears⟩, fun hok ↦ ?_⟩
  obtain rfl := hheard hok
  exact hbears.imp hR

theorem Over.cons (h : Over (w.transmit Channels.medium f.1 f.2) sender destination payloads R)
    (hrest : ∀ w : Session Channels, w.station.atRest = sender.atRest →
      w.medium.Bears sender.address destination payloads R [] →
      Over (w.transmitAll Channels.medium frames) sender destination payloads R') :
    Over (w.transmitAll Channels.medium (f :: frames)) sender destination payloads R' := by
  rw [transmitAll_cons]
  cases hresult : (w.transmit Channels.medium f.1 f.2).2 with
  | error e => exact ⟨h.station_eq, h.harmless, nofun⟩
  | ok => exact hrest _ h.station_eq (h.of_ok hresult)

theorem Over.nil (hstation : w.station.atRest = sender.atRest)
    (hR : R.Harmless sender.address destination payloads)
    (hw : w.medium.Bears sender.address destination payloads R []) :
    Over (w.transmitAll Channels.medium []) sender destination payloads R :=
  ⟨hstation, ⟨R, hR, hw⟩, fun _ ↦ hw⟩

theorem transmitAll_within (hcompletes : s.Completes frames payload)
    (hopen : sender.closed = false) (hpayload : payload ∈ payloads)
    (hlinks : ∀ f ∈ frames, f.1.Links sender.address destination)
    (hlinks' : g.1.Links sender.address destination) (hg : g.1.isLast = false)
    (hprevious : ∃ s₀ : SourceState, s₀.Expects g ∧ s = (s₀.take g.1 g.2).1)
    (hstation : w.station.atRest = sender.atRest)
    (hw : w.medium.Bears sender.address destination payloads
      (Within sender.address destination payloads s g) []) :
    Over (w.transmitAll Channels.medium frames) sender destination payloads
      (Between sender.address destination payloads) := by
  induction hcompletes generalizing g w with
  | @last s f hf hlast =>
    have hover := Over.transmit (.next ⟨hprevious, hg, hf⟩ (hlinks f List.mem_cons_self) hlinks'
      fun _ ↦ hpayload) hopen hstation (hw.imp fun h ↦ ⟨.start h.1 h.2, nofun⟩)
      (Leg.past_next _ _ _ _)
    rw [Past, if_pos hlast] at hover
    exact hover.cons fun w hstation hw ↦ .nil hstation harmless_between hw
  | @more s f frames payload hf hlast hframes ih =>
    have hover := Over.transmit (.next ⟨hprevious, hg, hf⟩ (hlinks f List.mem_cons_self) hlinks'
      fun h ↦ absurd (hlast.symm.trans h) nofun) hopen hstation
      (hw.imp fun h ↦ ⟨.start h.1 h.2, nofun⟩) (Leg.past_next _ _ _ _)
    rw [Past, if_neg (by simp [hlast])] at hover
    exact hover.cons fun w hstation hw ↦ ih hpayload
      (fun f hf ↦ hlinks f (List.mem_cons_of_mem _ hf)) (hlinks f List.mem_cons_self) hlast
      ⟨s, hf, rfl⟩ hstation hw

theorem transmitAll_between (hcompletes : SourceState.Completes {} frames payload)
    (hopen : sender.closed = false) (hpayload : payload ∈ payloads)
    (hlinks : ∀ f ∈ frames, f.1.Links sender.address destination)
    (hstation : w.station.atRest = sender.atRest)
    (hw : w.medium.Bears sender.address destination payloads
      (Between sender.address destination payloads) []) :
    Over (w.transmitAll Channels.medium frames) sender destination payloads
      (Between sender.address destination payloads) := by
  obtain ⟨s, acked, flight, ⟨hs, hall⟩, hrest⟩ := hw.traffic
  have hstart : ∀ t : Leg sender.address destination payloads, t.waiting s →
      (∀ x, s.Leaves sender.address destination payloads x → t.old x) →
      w.medium.Bears sender.address destination payloads (t.Known false) [] := fun t ht hold ↦
    { hw with
      traffic := ⟨s, acked, flight, ⟨.start ht fun x hx ↦ hold x (hall x hx), nofun⟩, hrest⟩ }
  cases hcompletes with
  | @last _ f hf hlast =>
    have hover := Over.transmit (.first hs hf (hlinks f List.mem_cons_self) fun _ ↦ hpayload) hopen
      hstation (hstart _ rfl fun x hx ↦ hx) (Leg.past_first _ _ _ _)
    rw [Past, if_pos hlast] at hover
    exact hover.cons fun w hstation hw ↦ .nil hstation harmless_between hw
  | @more _ f frames _ hf hlast hframes =>
    have hover := Over.transmit (.first hs hf (hlinks f List.mem_cons_self)
      fun h ↦ absurd (hlast.symm.trans h) nofun) hopen hstation (hstart _ rfl fun x hx ↦ hx)
      (Leg.past_first _ _ _ _)
    rw [Past, if_neg (by simp [hlast])] at hover
    exact hover.cons fun w hstation hw ↦ transmitAll_within hframes hopen hpayload
      (fun f hf ↦ hlinks f (List.mem_cons_of_mem _ hf)) (hlinks f List.mem_cons_self) hlast
      ⟨_, hf, rfl⟩ hstation hw

theorem Over.send (hready : sender.Ready destination) (hne : payload ≠ [])
    (hle : payload.length ≤ maxFrames * sender.bytesPerFrame) (hpayload : payload ∈ payloads)
    (hstation : w.station.atRest = sender.atRest)
    (hw : w.medium.Bears sender.address destination payloads
      (Between sender.address destination payloads) []) :
    Over (w.send Channels.medium destination payload) sender destination payloads
      (Between sender.address destination payloads) := by
  obtain ⟨w', remarks, hstation', hmedium, hsend⟩ :=
    send_eq Channels.medium hstation hready.destination_le hne
  have hover := transmitAll_between (w := w')
    (SourceState.Fresh.completes (s := {}) ⟨rfl, rfl⟩ hready.bytes_pos hne hle destination)
    hready.sender_open hpayload (fun f hf ↦ hready.links hf) (hstation' ▸ hstation)
    (hmedium ▸ hw)
  rw [hsend]
  exact ⟨hover.station_eq, hover.harmless, hover.of_ok⟩

theorem hearAll_atRest {packets : List (List UInt8)}
    (hpackets : ∀ packet ∈ packets, ∃ h : MacHeader, h.Links sender.address destination ∧
      packet = h.acknowledgement.bytes)
    (hstation : w.station.atRest = sender.atRest) :
    (packets.foldl (hear Channels.medium) w).station.atRest = sender.atRest ∧
      (packets.foldl (hear Channels.medium) w).medium = w.medium := by
  induction packets generalizing w with
  | nil => exact ⟨hstation, rfl⟩
  | cons packet packets ih =>
    obtain ⟨h, hlinks, rfl⟩ := hpackets packet List.mem_cons_self
    have hhandle := Station.handle_ack hlinks (Station.eq_of_atRest hstation).1
    have hheard : (w.hear Channels.medium h.acknowledgement.bytes).station.atRest = sender.atRest ∧
        (w.hear Channels.medium h.acknowledgement.bytes).medium = w.medium := by
      unfold hear
      rw [hhandle]
      dsimp only
      split_ifs
      · exact ⟨hstation, rfl⟩
      · exact ⟨hstation, rfl⟩
    rw [List.foldl_cons, ← hheard.2]
    exact ih (fun packet hpacket ↦ hpackets packet (List.mem_cons_of_mem _ hpacket)) hheard.1

theorem pause_bears (hR : R.Harmless sender.address destination payloads)
    (hstation : w.station.atRest = sender.atRest)
    (hw : w.medium.Bears sender.address destination payloads R []) (happenings : List Happening) :
    (w.pause happenings).station.atRest = sender.atRest ∧
      (w.pause happenings).medium.Bears sender.address destination payloads R [] := by
  have hbears := hw.happenAll hR happenings
  rw [List.nil_append] at hbears
  unfold pause
  generalize w.medium.happenAll happenings = after at hbears
  obtain ⟨medium, incidents⟩ := after
  obtain ⟨s, acked, flight, htraffic, -, hacks, -⟩ := hbears.traffic
  have hpackets : ∀ packet ∈ incidents.filterMap Incident.packet?, ∃ h : MacHeader,
      h.Links sender.address destination ∧ packet = h.acknowledgement.bytes := by
    intro packet hpacket
    have hmem : packet ∈ acked.map fun x ↦ x.1.acknowledgement.bytes := by
      rw [← hacks]
      exact List.mem_append_left _ hpacket
    obtain ⟨x, hx, rfl⟩ := List.mem_map.1 hmem
    exact ⟨x.1, hR.links htraffic x (List.mem_append_left _ hx), rfl⟩
  obtain ⟨hrest, hmedium⟩ := hearAll_atRest (w := { w with medium }) hpackets hstation
  refine ⟨hrest, ?_⟩
  rw [hmedium]
  exact hbears.lose hR nofun (List.sublist_append_right _ _) (.refl _)

theorem between_of_drained (hR : R.Harmless sender.address destination payloads)
    (hw : w.medium.Bears sender.address destination payloads R [])
    (hdrained : w.medium.frames ++ w.medium.acks = []) :
    w.medium.Bears sender.address destination payloads
      (Between sender.address destination payloads) [] := by
  obtain ⟨s, acked, flight, htraffic, hholds, hacks, hframes⟩ := hw.traffic
  obtain ⟨hflight, hacked⟩ := List.append_eq_nil_iff.1 hdrained
  obtain rfl : flight = [] := List.map_eq_nil_iff.1 (hframes.symm.trans hflight)
  obtain rfl : acked = [] := List.map_eq_nil_iff.1 (hacks.symm.trans hacked)
  exact { hw with traffic := ⟨s, [], [], ⟨hR.renewable htraffic, nofun⟩, hholds, hacks, hframes⟩ }

theorem sendPaced_delivered (hready : sender.Ready destination)
    {sends : List (List UInt8 × List Happening)}
    (hsends : ∀ p ∈ sends.map Prod.fst, p ≠ [] ∧ p.length ≤ maxFrames * sender.bytesPerFrame)
    (hpayloads : sends.map Prod.fst ⊆ payloads)
    (hpaced : ∀ o ∈ (w.sendPaced destination sends).2.dropLast, o.1 = .ok () ∨ o.2 = [])
    (hstation : w.station.atRest = sender.atRest)
    (hw : w.medium.Bears sender.address destination payloads
      (Between sender.address destination payloads) []) :
    ∀ p ∈ (w.sendPaced destination sends).1.medium.delivered, p ∈ payloads := by
  induction sends generalizing w with
  | nil => exact hw.delivered
  | cons first rest ih =>
    obtain ⟨payload, happenings⟩ := first
    obtain ⟨hne, hle⟩ := hsends payload List.mem_cons_self
    have hover := Over.send hready hne hle (hpayloads List.mem_cons_self) hstation hw
    obtain ⟨R, hR, hbears⟩ := hover.harmless
    obtain ⟨hrest, hpaused⟩ := pause_bears hR hover.station_eq hbears happenings
    rw [sendPaced] at hpaced ⊢
    cases rest with
    | nil => exact hpaused.delivered
    | cons second rest =>
      have hnext : ((w.send Channels.medium destination payload).1.pause happenings).medium.Bears
          sender.address destination payloads (Between sender.address destination payloads) [] := by
        obtain hok | hdrained := hpaced _ List.mem_cons_self
        · exact (pause_bears harmless_between hover.station_eq (hover.of_ok hok) happenings).2
        · exact between_of_drained hR hpaused hdrained
      exact ih (fun p hp ↦ hsends p (List.mem_cons_of_mem _ hp))
        (fun p hp ↦ hpayloads (List.mem_cons_of_mem _ hp))
        (fun o ho ↦ hpaced o (List.mem_cons_of_mem _ ho)) hrest hnext

end Session

def Station.pacedExchange (sender receiver : Station) (plan : List Try)
    (sends : List (List UInt8 × List Happening)) :
    Session Channels × List (Except MacError Unit × List (List UInt8)) :=
  Session.sendPaced ⟨sender, ⟨receiver, [], [], [], plan⟩, []⟩ receiver.address sends

/-- What comes out was sent, if a send after a failed one begins only when nothing is in flight. -/
theorem Station.Pair.mem_of_delivered {sender receiver : Station} (h : sender.Pair receiver)
    {sends : List (List UInt8 × List Happening)}
    (hsends : ∀ p ∈ sends.map Prod.fst, p ≠ [] ∧ p.length ≤ maxFrames * sender.bytesPerFrame)
    (plan : List Try)
    (hpaced : ∀ o ∈ (sender.pacedExchange receiver plan sends).2.dropLast, o.1 = .ok () ∨ o.2 = []) :
    ∀ p ∈ (sender.pacedExchange receiver plan sends).1.medium.delivered, p ∈ sends.map Prod.fst := by
  have hstart : Channels.Bears ⟨receiver, [], [], [], plan⟩ sender.address receiver.address
      (sends.map Prod.fst) (Between sender.address receiver.address (sends.map Prod.fst)) [] :=
    ⟨rfl, nofun, nofun, {}, [], [], ⟨fun _ ↦ rfl, nofun⟩, h.holds, rfl, rfl⟩
  exact Session.sendPaced_delivered h.ready hsends (List.Subset.refl _) hpaced rfl hstart

theorem Station.Pair.mem_of_delivered_third :
    let sender := ofConfig { bytesPerFrame := 1, maxRetries := 0 }
    let plan := [.played [.frameArrives], .played [], .played [.frameArrives, .ackArrives],
      .played [.frameArrives, .ackArrives]]
    let sends := [([1, 2], [.ackArrives]), ([3, 4], [.frameLost 0]), ([5, 6], [])]
    let w := sender.pacedExchange (ofConfig { address := 1 }) plan sends
    (∀ p ∈ w.1.medium.delivered, p ∈ sends.map Prod.fst) ∧
      w.2.map (fun o ↦ (o.1.isOk, o.2)) = [(false, []), (false, []), (true, [])] ∧
      w.1.medium.delivered = [[5, 6]] := by
  have hpair : (ofConfig { bytesPerFrame := 1, maxRetries := 0 }).Pair
      (ofConfig { address := 1 }) :=
    pair_ofConfig (by decide) (by decide) (by decide) (by decide)
  refine ⟨hpair.mem_of_delivered (by decide) _ fun o ho ↦ .inr ?_, by decide +kernel,
    by decide +kernel⟩
  revert o
  decide +kernel

/-- The send of the first payload fails with its acknowledgement in flight, which is then taken for
that of the next one, whose frame is lost. -/
theorem Station.exchange_late_ack :
    let w := (ofConfig { bytesPerFrame := 1, maxRetries := 0 }).exchange (ofConfig { address := 1 })
      [.played [.frameArrives], .played [.ackArrives, .frameLost 0],
        .played [.frameArrives, .ackArrives]]
      [[1, 2], [3, 4]]
    w.2.map Except.isOk = [false, true] ∧ w.1.medium.delivered = [[1, 4]] ∧
      [1, 4] ∉ [[(1 : UInt8), 2], [3, 4]] := by
  decide +kernel

end SoundLink
