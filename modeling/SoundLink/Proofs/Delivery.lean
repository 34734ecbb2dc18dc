import SoundLink.Proofs.Acknowledgement

namespace SoundLink

namespace Transfer

variable (t : Transfer)

theorem upholds : Session.Upholds Channels.medium t.sender t.current
    fun tries heard incidents w ↦
      ∃ used, (heard = true → 0 < used) ∧ t.Sees tries used incidents w where
  play := by
    rintro tries heard w htries ⟨used, hheard, hsees⟩
    obtain ⟨e, hplay, h⟩ | ⟨incidents, hplay, h⟩ := hsees.play htries
    · exact .inl ⟨e, hplay, used, hheard, h⟩
    · exact .inr ⟨incidents, hplay, used, hheard, h⟩
  not_closing := by
    rintro tries heard incidents w ⟨used, -, hsees⟩
    exact hsees.open_eq List.mem_cons_self
  disturbance := fun ⟨used, hheard, hsees⟩ ↦ ⟨used, hheard, hsees.quiet⟩
  packet := by
    rintro tries heard packet incidents w ⟨used, hheard, hsees⟩
    rw [t.links_current.destination_eq]
    -- an acknowledgement of the frame before is one that is not waited for
    obtain ⟨rfl, h⟩ | ⟨rfl, hne, h⟩ := hsees.hear
    · exact ⟨t.header true, t.links true, rfl, used + 1, fun _ ↦ Nat.succ_pos used, h⟩
    · refine ⟨t.header false, t.links false, rfl, used, ?_, h⟩
      simpa [header, hne] using hheard

end Transfer

def SourceState.Fresh (s : SourceState) : Prop := s.expected = 0 ∧ s.held = []

structure SourceState.Expects (s : SourceState) (f : MacHeader × List UInt8) : Prop where
  index_eq : f.1.index = s.expected
  held_eq : f.1.index = 0 → s.held = []
  part_ne : f.2 ≠ []

inductive SourceState.Completes : SourceState → List (MacHeader × List UInt8) → List UInt8 → Prop
  | last {s : SourceState} {f : MacHeader × List UInt8} :
      s.Expects f → f.1.isLast = true → Completes s [f] (s.held ++ f.2)
  | more {s : SourceState} {f : MacHeader × List UInt8} {frames : List (MacHeader × List UInt8)}
      {payload : List UInt8} : s.Expects f → f.1.isLast = false →
      Completes (s.take f.1 f.2).1 frames payload → Completes s (f :: frames) payload

namespace SourceState

variable {s : SourceState} {count j : ℕ} {parts : List (List UInt8)} {f : MacHeader × List UInt8}

theorem Expects.accept_eq (h : s.Expects f) : s.accept f.1 f.2 = s.take f.1 f.2 :=
  accept_of_expected h.index_eq h.held_eq f.2

theorem Completes.expects {frames : List (MacHeader × List UInt8)} {payload : List UInt8}
    (h : s.Completes (f :: frames) payload) : s.Expects f := by
  cases h with
  | last h _ => exact h
  | more h _ _ => exact h

theorem completes_frames (source destination : UInt8) (hcount : j + parts.length = count)
    (hle : count ≤ maxFrames) (hne : parts ≠ []) (hparts : ∀ part ∈ parts, part ≠ [])
    (hexpected : s.expected = UInt8.ofNat j) (hheld : j = 0 → s.held = []) :
    s.Completes (parts.mapIdx fun i ↦ MacHeader.frameAt source destination count (j + i))
      (s.held ++ parts.flatten) := by
  induction parts generalizing s j with
  | nil => exact absurd rfl hne
  | cons part parts ih =>
    rw [List.length_cons] at hcount
    rw [maxFrames] at hle
    have hexpects : s.Expects (MacHeader.frameAt source destination count j part) := by
      refine ⟨hexpected.symm, fun hzero ↦ hheld ?_, hparts part List.mem_cons_self⟩
      have := congrArg UInt8.toNat hzero
      simp only [MacHeader.frameAt, MacHeader.data, UInt8.toNat_ofNat'] at this
      change j % 256 = 0 at this
      omega
    rw [mapIdx_cons_add (MacHeader.frameAt source destination count), List.flatten_cons,
      ← List.append_assoc]
    cases parts with
    | nil =>
      have hlast : (MacHeader.frameAt source destination count j part).1.isLast = true := by
        simp [MacHeader.frameAt, MacHeader.data, ← hcount]
      rw [List.flatten_nil, List.append_nil]
      exact .last hexpects hlast
    | cons next parts =>
      have hlast : (MacHeader.frameAt source destination count j part).1.isLast = false := by
        simp [MacHeader.frameAt, MacHeader.data, ← hcount]
      refine .more hexpects hlast ?_
      rw [take_of_not_last hlast]
      refine ih (by omega) (List.cons_ne_nil _ _)
        (fun part hpart ↦ hparts part (List.mem_cons_of_mem _ hpart)) ?_ ?_
      · simp [MacHeader.frameAt, MacHeader.data, UInt8.ofNat_add]
      · simp

theorem Fresh.completes (hs : s.Fresh) {sender : Station} (hbytes : 0 < sender.bytesPerFrame)
    {payload : List UInt8} (hne : payload ≠ [])
    (hle : payload.length ≤ maxFrames * sender.bytesPerFrame) (destination : UInt8) :
    s.Completes (sender.frames destination payload) payload := by
  have hcompletes := completes_frames (s := s) (j := 0) sender.address destination (Nat.zero_add _)
    (length_chunks_le hbytes hle) (chunks_ne_nil hbytes hne)
    (fun part hpart ↦ (mem_chunks hpart).1) hs.1
    fun _ ↦ hs.2
  simp only [Nat.zero_add] at hcompletes
  rwa [hs.2, flatten_chunks hbytes, List.nil_append] at hcompletes

end SourceState

structure Station.Ready (sender : Station) (destination : UInt8) : Prop where
  sender_open : sender.closed = false
  bytes_pos : 0 < sender.bytesPerFrame
  source_le : sender.address.toNat ≤ Config.maxAddress
  destination_le : destination.toNat ≤ Config.maxAddress

namespace Station

variable {s : Station} {destination : UInt8} {payload : List UInt8} {f : MacHeader × List UInt8}

theorem Ready.links (hready : s.Ready destination) (h : f ∈ s.frames destination payload) :
    f.1.Links s.address destination := by
  rw [frames_eq] at h
  obtain ⟨j, -, rfl⟩ := List.mem_mapIdx.1 h
  exact ⟨rfl, rfl, rfl, hready.source_le, hready.destination_le⟩

theorem not_single_of_mem_frames (hbytes : 0 < s.bytesPerFrame)
    (hlt : s.bytesPerFrame < payload.length) (hle : payload.length ≤ maxFrames * s.bytesPerFrame)
    (h : f ∈ s.frames destination payload) :
    ¬(f.1.index = 0 ∧ f.1.isLast = true) := by
  have hmany : ¬(chunks s.bytesPerFrame payload).length ≤ 1 := by
    rw [length_chunks hbytes, chunkCount_le_iff hbytes]
    omega
  have hfew := length_chunks_le hbytes hle
  rw [maxFrames] at hfew
  rw [frames_eq] at h
  obtain ⟨j, hj, rfl⟩ := List.mem_mapIdx.1 h
  rintro ⟨hzero, hlast⟩
  have hzero := congrArg UInt8.toNat hzero
  simp only [MacHeader.frameAt, MacHeader.data, UInt8.toNat_ofNat',
    decide_eq_true_eq] at hzero hlast
  change j % 256 = 0 at hzero
  omega

end Station

namespace Session

def sendAll {σ : Type} (m : Medium σ) (w : Session σ) (destination : UInt8) :
    List (List UInt8) → Session σ × List (Except MacError Unit)
  | [] => (w, [])
  | payload :: rest =>
    let (w, result) := w.send m destination payload
    let (w, results) := w.sendAll m destination rest
    (w, result :: results)

theorem transmitAll_cons {σ : Type} {m : Medium σ} {w : Session σ} {f : MacHeader × List UInt8}
    {rest : List (MacHeader × List UInt8)} :
    w.transmitAll m (f :: rest) = match (w.transmit m f.1 f.2).2 with
      | .ok () => (w.transmit m f.1 f.2).1.transmitAll m rest
      | .error e => ((w.transmit m f.1 f.2).1, .error e) := by
  obtain ⟨h, part⟩ := f
  rw [transmitAll]
  generalize w.transmit m h part = sent
  obtain ⟨w, result⟩ := sent
  cases result <;> rfl

theorem transmitAll_of_ok {σ : Type} {m : Medium σ} {w : Session σ} {f : MacHeader × List UInt8}
    {rest : List (MacHeader × List UInt8)} (h : (w.transmitAll m (f :: rest)).2 = .ok ()) :
    (w.transmit m f.1 f.2).2 = .ok () ∧
      w.transmitAll m (f :: rest) = (w.transmit m f.1 f.2).1.transmitAll m rest := by
  rw [transmitAll_cons] at h ⊢
  cases hresult : (w.transmit m f.1 f.2).2 with
  | error e =>
    rw [hresult] at h
    cases h
  | ok => exact ⟨rfl, rfl⟩

theorem send_eq {σ : Type} (m : Medium σ) {w : Session σ} {sender : Station} {destination : UInt8}
    (hstation : w.station.atRest = sender.atRest) (hd : destination.toNat ≤ 7)
    {payload : List UInt8} (hne : payload ≠ []) :
    ∃ (w' : Session σ) (remarks : List Remark), w'.station = w.station ∧ w'.medium = w.medium ∧
      w.send m destination payload =
        ({ (w'.transmitAll m (sender.frames destination payload)).1 with remarks },
          (w'.transmitAll m (sender.frames destination payload)).2) := by
  have hempty : payload.isEmpty = false := List.isEmpty_eq_false_iff.2 hne
  have haddress : ¬Config.maxAddress < destination.toNat := by
    rw [Config.maxAddress]
    omega
  have hframes : w.station.frames destination payload = sender.frames destination payload := by
    obtain ⟨haddress, hsize, -, -⟩ := Station.eq_of_atRest hstation
    rw [Station.frames, Station.frames, haddress, hsize]
  refine ⟨w.remark (.sending payload.length destination (sender.frames destination payload).length),
    ?_⟩
  simp only [send, haddress, hempty, if_false, Bool.false_eq_true, hframes]
  generalize transmitAll m _ _ = sent
  obtain ⟨w', result⟩ := sent
  cases result with
  | error e => exact ⟨_, rfl, rfl, rfl⟩
  | ok => exact ⟨_, rfl, rfl, rfl⟩

/-- The sender between two frames, given what the receiver holds and what has been delivered. -/
structure Delivers (w : Session Channels) (sender : Station) (destination : UInt8) (s : SourceState)
    (delivered : List (List UInt8)) : Prop where
  station_eq : w.station.atRest = sender.atRest
  rests : ∃ last, w.medium.Rests sender.address destination last s delivered

namespace Delivers

variable {w : Session Channels} {sender : Station} {destination : UInt8} {s : SourceState}
  {delivered : List (List UInt8)} {f : MacHeader × List UInt8} {payload : List UInt8}

theorem transmit (h : w.Delivers sender destination s delivered) (hready : sender.Ready destination)
    (hlinks : f.1.Links sender.address destination) (hf : s.Expects f)
    (hsingle : 0 < sender.maxRetries → ¬(f.1.index = 0 ∧ f.1.isLast = true))
    (hok : (w.transmit Channels.medium f.1 f.2).2 = .ok ()) :
    (w.transmit Channels.medium f.1 f.2).1.Delivers sender destination (s.take f.1 f.2).1
      (delivered ++ (s.take f.1 f.2).2.payload?.toList) := by
  obtain ⟨last, hrests⟩ := h.rests
  obtain ⟨completes, hcompletes⟩ : ∃ completes, (s.take f.1 f.2).2 = .accepted completes := by
    unfold SourceState.take
    split_ifs
    · exact ⟨_, rfl⟩
    · exact ⟨_, rfl⟩
  let t : Transfer :=
    { sender, destination, delivered
      previous := last
      current := f
      before := s
      after := (s.take f.1 f.2).1
      completes
      sender_open := hready.sender_open
      links_previous := hrests.links
      links_current := hlinks
      index_eq := hf.index_eq
      accept_eq :=
        hf.accept_eq.trans (Prod.ext rfl hcompletes)
      recognises :=
        fun hretries ↦ SourceState.recognises_take hf.part_ne hf.held_eq (hsingle hretries) }
  obtain ⟨hstation, tries, htries, heard, ⟨used, hused, hsees⟩, hheard⟩ :=
    t.upholds.transmit (w := w) hready.sender_open h.station_eq
      ⟨0, nofun, Transfer.sees_of_rests (t := t) hrests⟩
  refine ⟨hstation, f, ?_⟩
  rw [hcompletes]
  exact hsees.rests (hused (hheard hok)) htries

theorem transmitAll {frames : List (MacHeader × List UInt8)}
    (h : w.Delivers sender destination s delivered) (hready : sender.Ready destination)
    (hframes : s.Completes frames payload)
    (hlinks : ∀ f ∈ frames, f.1.Links sender.address destination)
    (hsingle : 0 < sender.maxRetries → ∀ f ∈ frames, ¬(f.1.index = 0 ∧ f.1.isLast = true))
    (hok : (w.transmitAll Channels.medium frames).2 = .ok ()) :
    ∃ s', s'.Fresh ∧
      (w.transmitAll Channels.medium frames).1.Delivers sender destination s'
        (delivered ++ [payload]) := by
  induction hframes generalizing w delivered with
  | @last s f hf hlast =>
    obtain ⟨hfirst, hall⟩ := transmitAll_of_ok hok
    have hnext := h.transmit hready (hlinks f List.mem_cons_self) hf
      (fun hretries ↦ hsingle hretries f List.mem_cons_self) hfirst
    rw [SourceState.take_of_last hlast] at hnext
    rw [hall]
    exact ⟨_, ⟨rfl, rfl⟩, hnext⟩
  | @more s f frames payload hf hlast hframes ih =>
    obtain ⟨hfirst, hall⟩ := transmitAll_of_ok hok
    have hnext := h.transmit hready (hlinks f List.mem_cons_self) hf
      (fun hretries ↦ hsingle hretries f List.mem_cons_self) hfirst
    have hpayload : (s.take f.1 f.2).2.payload? = none := by
      rw [SourceState.take_of_not_last hlast]
      rfl
    rw [hpayload, Option.toList_none, List.append_nil] at hnext
    rw [hall] at hok ⊢
    exact ih hnext (fun f hf ↦ hlinks f (List.mem_cons_of_mem _ hf))
      (fun hretries f hf ↦ hsingle hretries f (List.mem_cons_of_mem _ hf)) hok

theorem send (h : w.Delivers sender destination s delivered) (hs : s.Fresh)
    (hready : sender.Ready destination) (hne : payload ≠ [])
    (hle : payload.length ≤ maxFrames * sender.bytesPerFrame)
    (hsingle : 0 < sender.maxRetries → sender.bytesPerFrame < payload.length)
    (hok : (w.send Channels.medium destination payload).2 = .ok ()) :
    ∃ s', s'.Fresh ∧ (w.send Channels.medium destination payload).1.Delivers sender destination s'
      (delivered ++ [payload]) := by
  obtain ⟨w', remarks, hstation, hmedium, hsend⟩ :=
    send_eq Channels.medium h.station_eq hready.destination_le hne
  have hstart : w'.Delivers sender destination s delivered :=
    ⟨hstation ▸ h.station_eq, hmedium ▸ h.rests⟩
  rw [hsend] at hok ⊢
  obtain ⟨s', hs', hdelivers⟩ := hstart.transmitAll hready
    (hs.completes hready.bytes_pos hne hle destination) (fun f hf ↦ hready.links hf)
    (fun hretries f hf ↦
      Station.not_single_of_mem_frames hready.bytes_pos (hsingle hretries) hle hf) hok
  exact ⟨s', hs', hdelivers.station_eq, hdelivers.rests⟩

theorem sendAll {payloads : List (List UInt8)} (h : w.Delivers sender destination s delivered)
    (hs : s.Fresh) (hready : sender.Ready destination)
    (hpayloads : ∀ p ∈ payloads, p ≠ [] ∧ p.length ≤ maxFrames * sender.bytesPerFrame)
    (hsingle : 0 < sender.maxRetries → ∀ p ∈ payloads, sender.bytesPerFrame < p.length)
    (hok : ∀ result ∈ (w.sendAll Channels.medium destination payloads).2, result = .ok ()) :
    ∃ s', (w.sendAll Channels.medium destination payloads).1.Delivers sender destination s'
      (delivered ++ payloads) := by
  induction payloads generalizing w s delivered with
  | nil => exact ⟨s, by simpa [Session.sendAll] using h⟩
  | cons payload payloads ih =>
    rw [Session.sendAll] at hok ⊢
    obtain ⟨hne, hle⟩ := hpayloads payload List.mem_cons_self
    obtain ⟨s', hs', hnext⟩ := h.send hs hready hne hle
      (fun hretries ↦ hsingle hretries payload List.mem_cons_self) (hok _ List.mem_cons_self)
    obtain ⟨s'', hdelivers⟩ := ih hnext hs' (fun p hp ↦ hpayloads p (List.mem_cons_of_mem _ hp))
      (fun hretries p hp ↦ hsingle hretries p (List.mem_cons_of_mem _ hp))
      fun result hresult ↦ hok result (List.mem_cons_of_mem _ hresult)
    rw [List.append_cons]
    exact ⟨s'', hdelivers⟩

end Delivers

end Session

/-- A sender and a receiver who have not met before. -/
structure Station.Pair (sender receiver : Station) : Prop where
  ready : sender.Ready receiver.address
  holds : receiver.Holds sender.address {}

theorem Station.pair_ofConfig {c c' : Config.Mac} (hbytes : 0 < c.bytesPerFrame.toNat)
    (hsource : c.address.toNat ≤ Config.maxAddress)
    (hdestination : c'.address.toNat ≤ Config.maxAddress) (hroom : 0 < c'.outputBuffer.toNat) :
    (ofConfig c).Pair (ofConfig c') :=
  have hempty : (Reassembler.empty.sources[Reassembler.slot c.address] : SourceState) = {} := by
    simp [Reassembler.empty]
  ⟨⟨rfl, hbytes, hsource, hdestination⟩, hempty, rfl, hroom⟩

/-- Sends payloads over channels with nothing in flight, by a plan of what becomes of each try. -/
def Station.exchange (sender receiver : Station) (plan : List Try) (payloads : List (List UInt8)) :
    Session Channels × List (Except MacError Unit) :=
  Session.sendAll Channels.medium ⟨sender, ⟨receiver, [], [], [], plan⟩, []⟩
    receiver.address payloads

variable {sender receiver : Station} {payloads : List (List UInt8)}

theorem Station.Pair.delivered_eq (h : sender.Pair receiver)
    (hpayloads : ∀ p ∈ payloads, p ≠ [] ∧ p.length ≤ maxFrames * sender.bytesPerFrame)
    (hsingle : 0 < sender.maxRetries → ∀ p ∈ payloads, sender.bytesPerFrame < p.length)
    (plan : List Try) (later : List Happening)
    (hok : ∀ result ∈ (sender.exchange receiver plan payloads).2, result = .ok ()) :
    ((sender.exchange receiver plan payloads).1.medium.happenAll later).1.delivered = payloads := by
  have hlinks : (MacHeader.data sender.address receiver.address 0 false).Links sender.address
      receiver.address :=
    ⟨rfl, rfl, rfl, h.ready.source_le, h.ready.destination_le⟩
  have hstart : Session.Delivers ⟨sender, ⟨receiver, [], [], [], plan⟩, []⟩
      sender receiver.address {} [] :=
    ⟨rfl, (_, []), hlinks, rfl, h.holds, rfl, by simp, by simp, by simp⟩
  obtain ⟨s, -, last, hrests⟩ := hstart.sendAll ⟨rfl, rfl⟩ h.ready hpayloads hsingle hok
  exact (hrests.happenAll later).delivered_eq

end SoundLink
