import SoundLink.Proofs.LossyChannel

namespace SoundLink

namespace Transmission

theorem proceed_cases (closed : Bool) (t : Transmission) :
    (∃ e, (t.proceed closed).1 = .ended (.error e)) ∨ (t.proceed closed).1 = .going t := by
  unfold proceed
  split_ifs
  · exact .inl ⟨_, rfl⟩
  · exact .inl ⟨_, rfl⟩
  · exact .inr rfl

theorem proceed_of_le {destination index : UInt8} {maxRetries retries timeouts : ℕ}
    {waiting : Waiting} (h : retries ≤ maxRetries) :
    proceed false ⟨destination, index, maxRetries, waiting, retries, timeouts⟩ =
      (.going ⟨destination, index, maxRetries, waiting, retries, timeouts⟩, []) := by
  rw [proceed, if_neg Bool.false_ne_true, if_neg (Nat.not_lt.2 h)]

section

variable (destination index : UInt8) (maxRetries retries timeouts : ℕ) (closed : Bool)

theorem step_free :
    (step closed ⟨destination, index, maxRetries, .free, retries, timeouts⟩ .free).1 =
      (proceed closed ⟨destination, index, maxRetries, .played, retries, timeouts⟩).1 := by
  unfold step
  dsimp only
  generalize proceed closed ⟨destination, index, maxRetries, .played, retries, timeouts⟩ = p
  obtain ⟨_ | _, _⟩ := p <;> rfl

theorem step_played :
    (step closed ⟨destination, index, maxRetries, .played, retries, timeouts⟩ .played).1 =
      (proceed closed ⟨destination, index, maxRetries, .acknowledgement, retries, timeouts⟩).1 :=
  rfl

theorem step_expired :
    (step closed ⟨destination, index, maxRetries, .acknowledgement, retries, timeouts⟩ .expired).1 =
      (proceed closed ⟨destination, index, maxRetries, .free, retries + 1, timeouts + 1⟩).1 := rfl

theorem step_acknowledged :
    (step closed ⟨destination, index, maxRetries, .acknowledgement, retries, timeouts⟩
      (.acknowledged index)).1 =
      .ended (.ok ()) :=
  congrArg Prod.fst (if_pos rfl)

end

theorem step_cases (closed : Bool) (t : Transmission) (o : Occurrence) :
    (∃ e, (t.step closed o).1 = .ended (.error e)) ∨
      (∃ t', t'.index = t.index ∧ (t.step closed o).1 = .going t') ∨
      o = .acknowledged t.index ∧ (t.step closed o).1 = .ended (.ok ()) := by
  have hproceed : ∀ t' : Transmission, t'.index = t.index →
      (∃ e, (t'.proceed closed).1 = .ended (.error e)) ∨
      (∃ t'', t''.index = t.index ∧ (t'.proceed closed).1 = .going t'') ∨
      o = .acknowledged t.index ∧ (t'.proceed closed).1 = .ended (.ok ()) :=
    fun t' h ↦ (proceed_cases closed t').imp_right fun hgoing ↦ .inl ⟨t', h, hgoing⟩
  obtain ⟨destination, index, maxRetries, waiting, retries, timeouts⟩ := t
  cases waiting with
  | free =>
    cases o with
    | busy => exact hproceed _ rfl
    | free =>
      rw [step_free]
      exact hproceed _ rfl
    | _ => exact .inr (.inl ⟨_, rfl, rfl⟩)
  | played =>
    cases o with
    | played =>
      exact hproceed ⟨destination, index, maxRetries, .acknowledgement, retries, timeouts⟩ rfl
    | cutOff => exact .inl ⟨_, rfl⟩
    | disturbed =>
      exact hproceed ⟨destination, index, maxRetries, .backoff, retries + 1, timeouts⟩ rfl
    | _ => exact .inr (.inl ⟨_, rfl, rfl⟩)
  | acknowledgement =>
    cases o with
    | acknowledged i =>
      by_cases hi : i = index
      · subst hi
        exact .inr (.inr ⟨rfl, step_acknowledged ..⟩)
      · have hstep : step closed ⟨destination, index, maxRetries, .acknowledgement, retries,
          timeouts⟩
            (.acknowledged i) = _ := if_neg hi
        rw [hstep]
        exact hproceed ⟨destination, index, maxRetries, .acknowledgement, retries, timeouts⟩ rfl
    | disturbed =>
      exact hproceed ⟨destination, index, maxRetries, .backoff, retries + 1, timeouts⟩ rfl
    | expired =>
      exact hproceed ⟨destination, index, maxRetries, .free, retries + 1, timeouts + 1⟩ rfl
    | _ => exact .inr (.inl ⟨_, rfl, rfl⟩)
  | backoff =>
    cases o with
    | rested => exact hproceed ⟨destination, index, maxRetries, .free, retries, timeouts⟩ rfl
    | _ => exact .inr (.inl ⟨_, rfl, rfl⟩)

end Transmission

def Station.atRest (s : Station) : Station := { s with awaiting := none, acks := {} }

theorem Station.eq_of_atRest {s s' : Station} (h : s.atRest = s'.atRest) :
    s.address = s'.address ∧ s.bytesPerFrame = s'.bytesPerFrame ∧ s.maxRetries = s'.maxRetries ∧
      s.closed = s'.closed := by
  simp only [atRest, Station.mk.injEq] at h
  obtain ⟨haddress, hbytes, hretries, -, -, -, -, -, hclosed⟩ := h
  exact ⟨haddress, hbytes, hretries, hclosed⟩

namespace Session

def begin {σ : Type} (w : Session σ) (h : MacHeader) (part : List UInt8) : Run σ :=
  ⟨{ w with
      station := { w.station with
        awaiting := some (h.destination, h.index)
        acks := w.station.acks.clear } },
    h, h.frame part,
    (Transmission.proceed w.station.closed
      ⟨h.destination, h.index, w.station.maxRetries, .free, 0, 0⟩).1⟩

theorem transmit_eq {σ : Type} (m : Medium σ) (w : Session σ) (h : MacHeader) (part : List UInt8) :
    w.transmit m h part =
      ({ ((w.begin h part).repeatedly m (w.station.maxRetries + 1)).session with
          station.awaiting := none },
        ((w.begin h part).repeatedly m (w.station.maxRetries + 1)).result) := rfl

theorem Run.standing_of_result {σ : Type} {r : Run σ} (h : r.result = .ok ()) :
    r.standing = .ended (.ok ()) := by
  unfold result at h
  split at h
  · rename_i result hstanding
    rw [hstanding, h]
  · cases h

def Run.handOver {σ : Type} (m : Medium σ) (r : Run σ) : Run σ :=
  { r with session.medium := (m.play r.session.medium r.bytes).1 }

/-- A try ends before its frame is handed over, or comes to what the medium makes of the frame. -/
theorem Run.attempt_cases {σ : Type} (m : Medium σ) (r : Run σ) :
    (∃ result, (r.occur .free).standing = .ended result ∧ r.attempt m = r.occur .free) ∨
    ∃ t, (r.occur .free).standing = .going t ∧
      match (m.play (r.occur .free).session.medium (r.occur .free).bytes).2 with
      | .cutOff => r.attempt m = { (r.occur .free).handOver m with
          session.station := (r.occur .free).session.station.close }.occur .cutOff
      | .disturbed e => r.attempt m = (((r.occur .free).handOver m).occur (.disturbed e)).rest
      | .played incidents => r.attempt m =
          ((incidents.foldl (meet m) (((r.occur .free).handOver m).occur .played).collect).occur
            .expired).rest := by
  unfold attempt handOver
  generalize r.occur .free = r
  obtain ⟨session, header, bytes, standing⟩ := r
  cases standing with
  | ended result => exact .inl ⟨result, rfl, rfl⟩
  | going t =>
    refine .inr ⟨t, rfl, ?_⟩
    obtain ⟨⟨medium, passage⟩, hpassage⟩ : ∃ played, m.play session.medium bytes = played := ⟨_, rfl⟩
    simp only [hpassage]
    cases passage <;> rfl

/-- What is known of a medium while a frame is sent over it: after so many tries, whether its
acknowledgement has been heard, and given what the sender has yet to look at. -/
structure Upholds {σ : Type} (m : Medium σ) (sender : Station) (f : MacHeader × List UInt8)
    (P : ℕ → Bool → List Incident → σ → Prop) : Prop where
  play : ∀ {tries heard w}, tries ≤ sender.maxRetries → P tries heard [] w →
    (∃ e, (m.play w (f.1.frame f.2)).2 = .disturbed e ∧
      P (tries + 1) heard [] (m.play w (f.1.frame f.2)).1) ∨
    ∃ incidents, (m.play w (f.1.frame f.2)).2 = .played incidents ∧
      P (tries + 1) heard incidents (m.play w (f.1.frame f.2)).1
  not_closing : ∀ {tries heard incidents w}, ¬P tries heard (.closing :: incidents) w
  disturbance : ∀ {tries heard e incidents w},
    P tries heard (.disturbance e :: incidents) w → P tries heard incidents w
  packet : ∀ {tries heard packet incidents w}, P tries heard (.packet packet :: incidents) w →
    ∃ h : MacHeader, h.Links sender.address f.1.destination ∧ packet = h.acknowledgement.bytes ∧
      P tries (heard || h.index == f.1.index) incidents w

structure Run.Keeps {σ : Type} (r : Run σ) (sender : Station) (f : MacHeader × List UInt8)
    (P : ℕ → Bool → List Incident → σ → Prop) (tries : ℕ) (heard : Bool)
    (incidents : List Incident) : Prop where
  medium : P tries heard incidents r.session.medium
  bytes_eq : r.bytes = f.1.frame f.2
  station_eq : r.session.station.atRest = sender.atRest
  awaiting_eq : r.session.station.awaiting = some (f.1.destination, f.1.index)
  pending : ∀ i, r.session.station.acks.pending = some i → heard = true
  going : ∀ t, r.standing = .going t → t.index = f.1.index
  acknowledged : r.standing = .ended (.ok ()) → heard = true

namespace Run.Keeps

variable {σ : Type} {m : Medium σ} {sender : Station} {f : MacHeader × List UInt8}
  {P : ℕ → Bool → List Incident → σ → Prop} {tries : ℕ} {heard : Bool}
  {incidents : List Incident} {r : Run σ}

theorem occur (h : r.Keeps sender f P tries heard incidents) {o : Occurrence}
    (ho : ∀ i, o = .acknowledged i → heard = true) :
    (r.occur o).Keeps sender f P tries heard incidents := by
  unfold Run.occur
  cases hstanding : r.standing with
  | ended result => exact h
  | going t =>
    have hindex := h.going t hstanding
    refine { h with going := ?_, acknowledged := ?_ }
    · intro t' ht'
      dsimp only at ht'
      obtain ⟨e, he⟩ | ⟨next, hnext, hgoing⟩ | ⟨-, hok⟩ := t.step_cases r.session.station.closed o
      · rw [he] at ht'
        cases ht'
      · rw [hgoing] at ht'
        cases ht'
        exact hnext.trans hindex
      · rw [hok] at ht'
        cases ht'
    · intro hok
      dsimp only at hok
      obtain ⟨e, he⟩ | ⟨next, -, hgoing⟩ | ⟨ho', -⟩ := t.step_cases r.session.station.closed o
      · rw [he] at hok
        cases hok
      · rw [hgoing] at hok
        cases hok
      · exact ho _ ho'

theorem rest (h : r.Keeps sender f P tries heard incidents) :
    r.rest.Keeps sender f P tries heard incidents :=
  h.occur nofun

theorem collect (h : r.Keeps sender f P tries heard incidents) :
    r.collect.Keeps sender f P tries heard incidents := by
  unfold Run.collect
  split
  · rename_i t i hstanding hpending
    have hheard := h.pending i hpending
    split_ifs
    · refine Keeps.occur ?_ fun _ _ ↦ hheard
      exact { h with pending := fun _ _ ↦ hheard }
    · exact h
  · exact h

variable (hm : Upholds m sender f P) (hopen : sender.closed = false)
include hm hopen

theorem meet {e : Incident} (h : r.Keeps sender f P tries heard (e :: incidents)) :
    ∃ heard', (r.meet m e).Keeps sender f P tries heard' incidents := by
  obtain ⟨haddress, -, -, hclosed⟩ := Station.eq_of_atRest h.station_eq
  rw [hopen] at hclosed
  cases e with
  | closing => exact absurd h.medium hm.not_closing
  | disturbance e => exact ⟨heard, Keeps.occur { h with medium := hm.disturbance h.medium } nofun⟩
  | packet packet =>
    obtain ⟨header, hlinks, rfl, hmedium⟩ := hm.packet h.medium
    have hhandle := Station.handle_ack hlinks haddress
    refine ⟨heard || header.index == f.1.index, ?_⟩
    simp only [Run.meet, hclosed, Bool.false_eq_true, if_false]
    apply Keeps.collect
    by_cases hindex : header.index = f.1.index
    · rw [if_pos (by rw [h.awaiting_eq, hindex])] at hhandle
      have hheard : (heard || header.index == f.1.index) = true := by simp [hindex]
      rw [hheard] at hmedium ⊢
      simp only [hear, hhandle]
      exact
        { medium := hmedium
          bytes_eq := h.bytes_eq
          station_eq := h.station_eq
          awaiting_eq := h.awaiting_eq
          pending := fun _ _ ↦ rfl
          going := h.going
          acknowledged := fun _ ↦ rfl }
    · have hother : r.session.station.awaiting ≠ some (f.1.destination, header.index) := by
        rw [h.awaiting_eq]
        intro heq
        exact hindex (congrArg Prod.snd (Option.some.inj heq)).symm
      rw [if_neg hother] at hhandle
      have hheard : (heard || header.index == f.1.index) = heard := by simp [hindex]
      rw [hheard] at hmedium ⊢
      simp only [hear, hhandle]
      exact { h with medium := hmedium }

theorem meetAll (h : r.Keeps sender f P tries heard incidents) :
    ∃ heard', (incidents.foldl (Run.meet m) r).Keeps sender f P tries heard' [] := by
  induction incidents generalizing heard r with
  | nil => exact ⟨heard, h⟩
  | cons e incidents ih =>
    obtain ⟨heard', h'⟩ := h.meet hm hopen
    exact ih h'

theorem attempt (h : r.Keeps sender f P tries heard []) (htries : tries ≤ sender.maxRetries) :
    ∃ tries' ≤ tries + 1, ∃ heard', (r.attempt m).Keeps sender f P tries' heard' [] := by
  have hfree : (r.occur .free).Keeps sender f P tries heard [] := h.occur nofun
  obtain ⟨result, -, hattempt⟩ | ⟨t, -, hattempt⟩ := r.attempt_cases m
  · rw [hattempt]
    exact ⟨tries, Nat.le_succ _, heard, hfree⟩
  · have hplay := hm.play htries hfree.medium
    rw [← hfree.bytes_eq] at hplay
    refine ⟨tries + 1, le_rfl, ?_⟩
    obtain ⟨e, hpassage, hmedium⟩ | ⟨incidents, hpassage, hmedium⟩ := hplay
    · rw [hpassage] at hattempt
      rw [hattempt]
      have hnext : ((r.occur .free).handOver m).Keeps sender f P (tries + 1) heard [] :=
        { hfree with medium := hmedium }
      exact ⟨heard, (hnext.occur (o := .disturbed e) nofun).rest⟩
    · rw [hpassage] at hattempt
      rw [hattempt]
      have hnext : ((r.occur .free).handOver m).Keeps sender f P (tries + 1) heard incidents :=
        { hfree with medium := hmedium }
      obtain ⟨heard', hmet⟩ := (hnext.occur (o := .played) nofun).collect.meetAll hm hopen
      exact ⟨heard', (hmet.occur (o := .expired) nofun).rest⟩

theorem repeatedly (h : r.Keeps sender f P tries heard []) (n : ℕ)
    (hn : tries + n ≤ sender.maxRetries + 1) :
    ∃ tries' ≤ tries + n, ∃ heard', (r.repeatedly m n).Keeps sender f P tries' heard' [] := by
  induction n generalizing tries heard r with
  | zero => exact ⟨tries, le_rfl, heard, h⟩
  | succ n ih =>
    rw [Run.repeatedly]
    split
    · exact ⟨tries, Nat.le_add_right _ _, heard, h⟩
    · obtain ⟨tries', hle, heard', h'⟩ := h.attempt hm hopen (by omega)
      obtain ⟨tries'', hle', hrest⟩ := ih h' (by omega)
      exact ⟨tries'', by omega, hrest⟩

end Run.Keeps

theorem Upholds.transmit {σ : Type} {m : Medium σ} {sender : Station} {f : MacHeader × List UInt8}
    {P : ℕ → Bool → List Incident → σ → Prop} {w : Session σ} (hm : Upholds m sender f P)
    (hopen : sender.closed = false) (hstation : w.station.atRest = sender.atRest)
    (hmedium : P 0 false [] w.medium) :
    (w.transmit m f.1 f.2).1.station.atRest = sender.atRest ∧
      ∃ tries ≤ sender.maxRetries + 1, ∃ heard, P tries heard [] (w.transmit m f.1 f.2).1.medium ∧
        ((w.transmit m f.1 f.2).2 = .ok () → heard = true) := by
  obtain ⟨-, -, hretries, hclosed⟩ := Station.eq_of_atRest hstation
  rw [hopen] at hclosed
  have hgoing : (w.begin f.1 f.2).standing =
      .going ⟨f.1.destination, f.1.index, w.station.maxRetries, .free, 0, 0⟩ := by
    simp [begin, Transmission.proceed, hclosed]
  have hstart : (w.begin f.1 f.2).Keeps sender f P 0 false [] :=
    { medium := hmedium
      bytes_eq := rfl
      station_eq := hstation
      awaiting_eq := rfl
      pending := nofun
      going := by
        intro t ht
        rw [hgoing] at ht
        cases ht
        rfl
      acknowledged := by
        intro hok
        rw [hgoing] at hok
        cases hok }
  obtain ⟨tries, hle, heard, hrun⟩ :=
    hstart.repeatedly hm hopen (w.station.maxRetries + 1) (by omega)
  rw [transmit_eq]
  refine ⟨hrun.station_eq, tries, by omega, heard, hrun.medium, ?_⟩
  intro hok
  exact hrun.acknowledged (Run.standing_of_result hok)

end Session

end SoundLink
