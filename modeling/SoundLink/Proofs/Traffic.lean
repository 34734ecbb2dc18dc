import SoundLink.Proofs.Abandonment

namespace SoundLink

/-- What is known of the receiver, of the frames whose acknowledgements are on their way, and of the
frames in flight. -/
abbrev Traffic := SourceState → List (MacHeader × List UInt8) → List (MacHeader × List UInt8) → Prop

/-- Whatever is lost and whatever arrives, only payloads come out. -/
structure Traffic.Harmless (R : Traffic) (source destination : UInt8)
    (payloads : List (List UInt8)) : Prop where
  lose : ∀ {s acked frames acked' frames'}, R s acked frames → acked'.Sublist acked →
    frames'.Sublist frames → R s acked' frames'
  arrive : ∀ {s acked x frames}, R s acked (x :: frames) → ∃ s' a, s.accept x.1 x.2 = (s', a) ∧
    R s' (if a = .dropped then acked else acked ++ [x]) frames ∧ ∀ p ∈ a.payload?, p ∈ payloads
  links : ∀ {s acked frames}, R s acked frames → ∀ x ∈ acked ++ frames,
    x.1.Links source destination
  renewable : ∀ {s acked frames}, R s acked frames → s.Renewable

structure Channels.Bears (w : Channels) (source destination : UInt8) (payloads : List (List UInt8))
    (R : Traffic) (incidents : List Incident) : Prop where
  address_eq : w.receiver.address = destination
  open_eq : .closing ∉ incidents
  delivered : ∀ p ∈ w.delivered, p ∈ payloads
  traffic : ∃ s acked frames, R s acked frames ∧ w.receiver.Holds source s ∧
    incidents.filterMap Incident.packet? ++ w.acks =
      acked.map (fun x ↦ x.1.acknowledgement.bytes) ∧
    w.frames = frames.map fun x ↦ x.1.frame x.2

namespace Channels.Bears

variable {w : Channels} {source destination : UInt8} {payloads : List (List UInt8)} {R R' : Traffic}
  {incidents : List Incident}

theorem imp (h : w.Bears source destination payloads R incidents)
    (hR : ∀ {s acked frames}, R s acked frames → R' s acked frames) :
    w.Bears source destination payloads R' incidents := by
  obtain ⟨s, acked, frames, htraffic, hrest⟩ := h.traffic
  exact { h with traffic := ⟨s, acked, frames, hR htraffic, hrest⟩ }

theorem lose (h : w.Bears source destination payloads R incidents)
    (hR : R.Harmless source destination payloads) {incidents' : List Incident}
    {acks frames : List (List UInt8)} (hopen : .closing ∉ incidents')
    (ha : (incidents'.filterMap Incident.packet? ++ acks).Sublist
      (incidents.filterMap Incident.packet? ++ w.acks))
    (hf : frames.Sublist w.frames) :
    Bears { w with acks, frames } source destination payloads R incidents' := by
  obtain ⟨s, acked, flight, htraffic, hholds, hacks, hframes⟩ := h.traffic
  rw [hacks] at ha
  rw [hframes] at hf
  obtain ⟨acked', hacked, hacks'⟩ := List.sublist_map_iff.1 ha
  obtain ⟨flight', hflight, rfl⟩ := List.sublist_map_iff.1 hf
  exact ⟨h.address_eq, hopen, h.delivered, s, acked', flight', hR.lose htraffic hacked hflight,
    hholds, hacks', rfl⟩

theorem arrive (h : w.Bears source destination payloads R incidents)
    (hR : R.Harmless source destination payloads) :
    w.arrive.Bears source destination payloads R incidents := by
  obtain ⟨s, acked, flight, htraffic, hholds, hacks, hframes⟩ := h.traffic
  cases flight with
  | nil =>
    have harrive : w.arrive = w := by
      rw [List.map_nil] at hframes
      rw [Channels.arrive, hframes]
    rw [harrive]
    exact h
  | cons x flight =>
    obtain ⟨s', a, haccept, hnext, hpayload⟩ := hR.arrive htraffic
    have hlinks := hR.links htraffic x (List.mem_append_right _ List.mem_cons_self)
    by_cases ha : a = .dropped
    · subst ha
      obtain ⟨r, haddress, hholds', harrive⟩ :=
        arrive_eq_of_dropped hlinks h.address_eq hframes hholds haccept
      rw [harrive]
      exact ⟨haddress, h.open_eq, h.delivered, s', acked, flight, hnext, hholds', hacks, rfl⟩
    · rw [if_neg ha] at hnext
      obtain ⟨r, haddress, hholds', harrive⟩ :=
        arrive_eq hlinks h.address_eq hframes hholds haccept ha
      rw [harrive]
      refine ⟨haddress, h.open_eq, ?_, s', acked ++ [x], flight, hnext, hholds', ?_, rfl⟩
      · intro p hp
        obtain hp | hp := List.mem_append.1 hp
        · exact h.delivered p hp
        · exact hpayload p (by simpa using hp)
      · rw [List.map_append, ← hacks, List.append_assoc]
        rfl

theorem happen (h : w.Bears source destination payloads R incidents)
    (hR : R.Harmless source destination payloads) (e : Happening) :
    (w.happen e).1.Bears source destination payloads R (incidents ++ (w.happen e).2) := by
  cases e with
  | frameLost i =>
    rw [Channels.happen, List.append_nil]
    exact h.lose hR h.open_eq (.refl _) (List.eraseIdx_sublist ..)
  | ackLost i =>
    rw [Channels.happen, List.append_nil]
    exact h.lose hR h.open_eq ((List.Sublist.refl _).append (List.eraseIdx_sublist ..)) (.refl _)
  | frameArrives =>
    rw [Channels.happen, List.append_nil]
    exact h.arrive hR
  | ackArrives =>
    have hpackets : (incidents ++ w.acks.head?.toList.map Incident.packet).filterMap
        Incident.packet? ++ w.acks.tail = incidents.filterMap Incident.packet? ++ w.acks := by
      cases w.acks <;> simp [Incident.packet?]
    refine h.lose hR ?_ (hpackets ▸ .refl _) (.refl _)
    simpa [Channels.happen] using h.open_eq
  | disturbance e =>
    refine h.lose hR ?_ ?_ (.refl _)
    · simpa [Channels.happen] using h.open_eq
    · simp [Channels.happen, Incident.packet?]

theorem happenAll (h : w.Bears source destination payloads R incidents)
    (hR : R.Harmless source destination payloads) (happenings : List Happening) :
    (w.happenAll happenings).1.Bears source destination payloads R
      (incidents ++ (w.happenAll happenings).2) := by
  induction happenings generalizing incidents w with
  | nil => simpa [Channels.happenAll] using h
  | cons e rest ih =>
    rw [Channels.happenAll, ← List.append_assoc]
    exact ih (h.happen hR e)

end Channels.Bears

/-- The way of a frame to a receiver that may have yet to take older ones. -/
structure Leg (source destination : UInt8) (payloads : List (List UInt8)) where
  frame : MacHeader × List UInt8
  waiting : SourceState → Prop
  taken : SourceState
  old : MacHeader × List UInt8 → Prop
  links : frame.1.Links source destination
  links_old : ∀ x, old x → x.1.Links source destination
  renewable : ∀ s, waiting s → s.Renewable
  renewable_taken : taken.Renewable
  accept_old : ∀ s, waiting s → ∀ x, old x → ∃ s' a, s.accept x.1 x.2 = (s', a) ∧ waiting s' ∧
    ∀ p ∈ a.payload?, p ∈ payloads
  accept_frame : ∀ s, waiting s → ∃ a, (∀ p ∈ a.payload?, p ∈ payloads) ∧
    (s.accept frame.1 frame.2 = (taken, a) ∧ a ≠ .dropped ∨
      s.accept frame.1 frame.2 = (s, a) ∧ a = .dropped)
  accept_again : ∃ a, taken.accept frame.1 frame.2 = (taken, a) ∧ a ≠ .dropped ∧
    ∀ p ∈ a.payload?, p ∈ payloads

namespace Leg

variable {source destination : UInt8} {payloads : List (List UInt8)}
  (t : Leg source destination payloads)

/-- What is older comes first. -/
inductive Pipe : Traffic
  | waiting {s : SourceState} {acked old copies : List (MacHeader × List UInt8)} : t.waiting s →
      (∀ x ∈ acked, t.old x) → (∀ x ∈ old, t.old x) → (∀ x ∈ copies, x = t.frame) →
      Pipe s acked (old ++ copies)
  | taken {old acked copies : List (MacHeader × List UInt8)} : (∀ x ∈ old, t.old x) →
      (∀ x ∈ acked, x = t.frame) → (∀ x ∈ copies, x = t.frame) →
      Pipe t.taken (old ++ acked) copies

def Settled : Traffic := fun s acked frames ↦ s = t.taken ∧ ∀ x ∈ acked ++ frames, x = t.frame

/-- No older frame can be taken for this one by its index. -/
def Distinct : Prop := ∀ x, t.old x → x.1.index ≠ t.frame.1.index

def Known (heard : Bool) : Traffic := fun s acked frames ↦
  t.Pipe s acked frames ∧ (heard = true → t.Distinct → t.Settled s acked frames)

variable {t} {heard : Bool} {s : SourceState} {acked frames : List (MacHeader × List UInt8)}
  {x : MacHeader × List UInt8}

theorem Pipe.start (hs : t.waiting s) (h : ∀ x ∈ acked ++ frames, t.old x) :
    t.Pipe s acked frames := by
  obtain ⟨hacked, hframes⟩ := List.forall_mem_append.1 h
  have hpipe : t.Pipe s acked (frames ++ []) := .waiting hs hacked hframes (List.forall_mem_nil _)
  rwa [List.append_nil] at hpipe

theorem harmless_pipe : t.Pipe.Harmless source destination payloads where
  lose := by
    rintro s acked frames acked' frames' (⟨hs, hacked, hold, hcopies⟩ | ⟨hold, hacked, hcopies⟩)
      ha hf
    · obtain ⟨old', copies', rfl, hold', hcopies'⟩ := List.sublist_append_iff.1 hf
      exact .waiting hs (fun x hx ↦ hacked x (ha.subset hx)) (fun x hx ↦ hold x (hold'.subset hx))
        fun x hx ↦ hcopies x (hcopies'.subset hx)
    · obtain ⟨old', acked', rfl, hold', hacked'⟩ := List.sublist_append_iff.1 ha
      exact .taken (fun x hx ↦ hold x (hold'.subset hx)) (fun x hx ↦ hacked x (hacked'.subset hx))
        fun x hx ↦ hcopies x (hf.subset hx)
  arrive := by
    intro s acked x frames h
    generalize hflight : x :: frames = flight at h
    rcases h with ⟨hs, hacked, hold, hcopies⟩ | ⟨hold, hacked, hcopies⟩
    · rename_i old copies
      cases old with
      | nil =>
        -- nothing older is in front of the frame, which is taken or dropped
        rw [List.nil_append] at hflight
        subst hflight
        obtain rfl := hcopies x List.mem_cons_self
        have hrest : ∀ x ∈ frames, x = t.frame := fun x hx ↦ hcopies x (List.mem_cons_of_mem _ hx)
        obtain ⟨a, hpayload, ⟨haccept, ha⟩ | ⟨haccept, rfl⟩⟩ := t.accept_frame s hs
        · refine ⟨t.taken, a, haccept, ?_, hpayload⟩
          rw [if_neg ha]
          exact .taken hacked (by simp) hrest
        · refine ⟨s, .dropped, haccept, ?_, hpayload⟩
          exact .waiting hs hacked (List.forall_mem_nil _) hrest
      | cons y old =>
        rw [List.cons_append] at hflight
        obtain ⟨rfl, rfl⟩ := List.cons.inj hflight
        have hx := hold x List.mem_cons_self
        obtain ⟨s', a, haccept, hs', hpayload⟩ := t.accept_old s hs x hx
        refine ⟨s', a, haccept, ?_, hpayload⟩
        refine .waiting hs' ?_ (fun y hy ↦ hold y (List.mem_cons_of_mem _ hy)) hcopies
        split_ifs
        · exact hacked
        · exact List.forall_mem_append.2 ⟨hacked, List.forall_mem_singleton.2 hx⟩
    · subst hflight
      obtain rfl := hcopies x List.mem_cons_self
      obtain ⟨a, haccept, ha, hpayload⟩ := t.accept_again
      refine ⟨t.taken, a, haccept, ?_, hpayload⟩
      rw [if_neg ha, List.append_assoc]
      exact .taken hold (List.forall_mem_append.2 ⟨hacked, List.forall_mem_singleton.2 rfl⟩)
        fun x hx ↦ hcopies x (List.mem_cons_of_mem _ hx)
  links := by
    intro s acked frames h x hx
    have hcopy : x = t.frame → x.1.Links source destination := fun hx ↦ hx ▸ t.links
    rcases h with ⟨hs, hacked, hold, hcopies⟩ | ⟨hold, hacked, hcopies⟩
    · rcases List.mem_append.1 hx with hx | hx
      · exact t.links_old x (hacked x hx)
      · rcases List.mem_append.1 hx with hx | hx
        · exact t.links_old x (hold x hx)
        · exact hcopy (hcopies x hx)
    · rcases List.mem_append.1 hx with hx | hx
      · rcases List.mem_append.1 hx with hx | hx
        · exact t.links_old x (hold x hx)
        · exact hcopy (hacked x hx)
      · exact hcopy (hcopies x hx)
  renewable := by
    rintro s acked frames (⟨hs, -, -, -⟩ | -)
    · exact t.renewable s hs
    · exact t.renewable_taken

theorem harmless_known (heard : Bool) : (t.Known heard).Harmless source destination payloads where
  lose := by
    rintro s acked frames acked' frames' ⟨hpipe, hsettled⟩ ha hf
    refine ⟨harmless_pipe.lose hpipe ha hf, fun hheard hdistinct ↦ ?_⟩
    obtain ⟨hs, hall⟩ := hsettled hheard hdistinct
    exact ⟨hs, fun x hx ↦ hall x ((ha.append hf).subset hx)⟩
  arrive := by
    rintro s acked x frames ⟨hpipe, hsettled⟩
    obtain ⟨s', a, haccept, hnext, hpayload⟩ := harmless_pipe.arrive hpipe
    refine ⟨s', a, haccept, ⟨hnext, fun hheard hdistinct ↦ ?_⟩, hpayload⟩
    obtain ⟨rfl, hall⟩ := hsettled hheard hdistinct
    obtain rfl := hall x (by simp)
    obtain ⟨a', hagain, ha', -⟩ := t.accept_again
    obtain ⟨rfl, rfl⟩ := Prod.mk.inj (haccept.symm.trans hagain)
    refine ⟨rfl, ?_⟩
    intro y hy
    rw [if_neg ha', List.append_assoc] at hy
    exact hall y hy
  links := fun h ↦ harmless_pipe.links h.1
  renewable := fun h ↦ harmless_pipe.renewable h.1

theorem Known.push (h : t.Known heard s acked frames) :
    t.Known heard s acked (frames ++ [t.frame]) := by
  obtain ⟨hpipe, hsettled⟩ := h
  have hpush : ∀ copies : List (MacHeader × List UInt8), (∀ x ∈ copies, x = t.frame) →
      ∀ x ∈ copies ++ [t.frame], x = t.frame := fun copies hcopies ↦
    List.forall_mem_append.2 ⟨hcopies, List.forall_mem_singleton.2 rfl⟩
  constructor
  · rcases hpipe with ⟨hs, hacked, hold, hcopies⟩ | ⟨hold, hacked, hcopies⟩
    · rw [List.append_assoc]
      exact .waiting hs hacked hold (hpush _ hcopies)
    · exact .taken hold hacked (hpush _ hcopies)
  · intro hheard hdistinct
    obtain ⟨hs, hall⟩ := hsettled hheard hdistinct
    refine ⟨hs, ?_⟩
    rw [← List.append_assoc]
    exact hpush _ hall

theorem Known.hear (h : t.Known heard s (x :: acked) frames) :
    t.Known (heard || x.1.index == t.frame.1.index) s acked frames := by
  have hpipe := harmless_pipe.lose h.1 (List.sublist_cons_self x acked) (List.Sublist.refl frames)
  refine ⟨hpipe, fun hheard hdistinct ↦ ?_⟩
  rw [Bool.or_eq_true, beq_iff_eq] at hheard
  obtain hheard | hindex := hheard
  · obtain ⟨hs, hall⟩ := h.2 hheard hdistinct
    exact ⟨hs, fun y hy ↦ hall y (List.mem_cons_of_mem _ hy)⟩
  · have hnot : ¬t.old x := fun hold ↦ hdistinct x hold hindex
    obtain ⟨hpipe, -⟩ := h
    generalize hflight : x :: acked = flight at hpipe
    rcases hpipe with ⟨hs, hacked, hold, hcopies⟩ | ⟨hold, hacked, hcopies⟩
    · exact absurd (hacked x (hflight ▸ List.mem_cons_self)) hnot
    · rename_i old copies
      cases old with
      | nil =>
        rw [List.nil_append] at hflight
        subst hflight
        refine ⟨rfl, ?_⟩
        intro y hy
        obtain hy | hy := List.mem_append.1 hy
        · exact hacked y (List.mem_cons_of_mem _ hy)
        · exact hcopies y hy
      | cons y old =>
        obtain ⟨rfl, -⟩ := List.cons.inj hflight
        exact absurd (hold x List.mem_cons_self) hnot

theorem upholds {sender : Station} (t : Leg sender.address destination payloads) :
    Session.Upholds Channels.medium sender t.frame fun _ heard incidents w ↦
      w.Bears sender.address destination payloads (t.Known heard) incidents where
  play := by
    rintro tries heard w - h
    have hpush : ∀ plan, Channels.Bears
        { w with plan, frames := w.frames ++ [t.frame.1.frame t.frame.2] }
        sender.address destination payloads (t.Known heard) [] := by
      intro plan
      obtain ⟨s, acked, flight, htraffic, hholds, hacks, hframes⟩ := h.traffic
      refine ⟨h.address_eq, h.open_eq, h.delivered, s, acked, flight ++ [t.frame], htraffic.push,
        hholds, hacks, ?_⟩
      rw [List.map_append, ← hframes]
      rfl
    change (∃ e, (w.play _).2 = _ ∧ Channels.Bears (w.play _).1 _ _ _ _ _) ∨
      ∃ incidents, (w.play _).2 = _ ∧ Channels.Bears (w.play _).1 _ _ _ _ _
    unfold Channels.play
    cases hplan : w.plan with
    | nil => exact .inr ⟨[], rfl, hpush []⟩
    | cons try' plan =>
      cases try' with
      | disturbed e => exact .inl ⟨e, rfl, h.address_eq, h.open_eq, h.delivered, h.traffic⟩
      | played happenings =>
        exact .inr ⟨_, rfl, (hpush plan).happenAll (t.harmless_known heard) happenings⟩
  not_closing := fun h ↦ h.open_eq List.mem_cons_self
  disturbance := fun h ↦
    ⟨h.address_eq, (not_or.1 (List.mem_cons.not.1 h.open_eq)).2, h.delivered, h.traffic⟩
  packet := by
    intro tries heard packet incidents w h
    obtain ⟨s, acked, flight, htraffic, hholds, hacks, hframes⟩ := h.traffic
    cases acked with
    | nil => cases hacks
    | cons x acked =>
      obtain ⟨rfl, htail⟩ := List.cons.inj hacks
      rw [t.links.destination_eq]
      refine ⟨x.1, (t.harmless_known heard).links htraffic x (by simp), rfl, ?_⟩
      exact ⟨h.address_eq, (not_or.1 (List.mem_cons.not.1 h.open_eq)).2, h.delivered, s, acked,
        flight, htraffic.hear, hholds, htail, hframes⟩

theorem transmit {sender : Station} (t : Leg sender.address destination payloads)
    (hopen : sender.closed = false) {w : Session Channels}
    (hstation : w.station.atRest = sender.atRest)
    (hw : w.medium.Bears sender.address destination payloads (t.Known false) []) :
    (w.transmit Channels.medium t.frame.1 t.frame.2).1.station.atRest = sender.atRest ∧
      ∃ heard, (w.transmit Channels.medium t.frame.1 t.frame.2).1.medium.Bears sender.address
          destination payloads (t.Known heard) [] ∧
        ((w.transmit Channels.medium t.frame.1 t.frame.2).2 = .ok () → heard = true) := by
  obtain ⟨hrest, -, -, heard, hbears, hheard⟩ := t.upholds.transmit hopen hstation hw
  exact ⟨hrest, heard, hbears, hheard⟩

end Leg

end SoundLink
