import SoundLink.Playback
import Mathlib.Tactic

namespace SoundLink

def Ticket.leave (t : Ticket) : Ticket := { t with fate := if t.cancelled then .gone else .played }

theorem Ticket.leave_leave (t : Ticket) : t.leave.leave = t.leave := rfl

namespace Playback

def line (p : Playback) : List Track := p.current.toList ++ p.queue

def Draw.line (d : Draw) : List Track := d.current.toList ++ d.queue

variable {tickets : List Ticket} {tracks : List Track} {t : Track} {n k done id : ℕ} {fate : Fate}

theorem getElem?_setFate (fate : Fate) (tickets : List Ticket) (id j : ℕ) :
    (setFate fate tickets id)[j]? =
      if id = j then (tickets[j]?).map fun t ↦ { t with fate } else tickets[j]? := by
  rw [setFate, List.getElem?_modify]
  split <;> simp

theorem length_setFate (fate : Fate) (tickets : List Ticket) (id : ℕ) :
    (setFate fate tickets id).length = tickets.length := List.length_modify _ _ _

theorem isCancelled_setFate (fate : Fate) (tickets : List Ticket) (id j : ℕ) :
    isCancelled (setFate fate tickets id) j = isCancelled tickets j := by
  rw [isCancelled, getElem?_setFate, isCancelled]
  split
  · cases tickets[j]? <;> rfl
  · rfl

def finish (tickets : List Ticket) (done k : ℕ) : List Ticket :=
  (List.range' done k).foldl (setFate .played) tickets

theorem finish_succ (tickets : List Ticket) (done k : ℕ) :
    finish tickets done (k + 1) = finish (setFate .played tickets done) (done + 1) k := rfl

theorem length_finish (tickets : List Ticket) (done k : ℕ) :
    (finish tickets done k).length = tickets.length := by
  induction k generalizing tickets done with
  | zero => rfl
  | succ k ih => rw [finish_succ, ih, length_setFate]

theorem getElem?_finish (tickets : List Ticket) (done k j : ℕ) :
    (finish tickets done k)[j]? =
      if done ≤ j ∧ j < done + k then (tickets[j]?).map fun t ↦ { t with fate := .played }
      else tickets[j]? := by
  induction k generalizing tickets done with
  | zero => rw [if_neg (by omega)]; rfl
  | succ k ih =>
    rw [finish_succ, ih, getElem?_setFate]
    by_cases hj : done = j
    · rw [if_neg (by omega), if_pos hj, if_pos (by omega)]
    · rw [if_neg hj]
      by_cases hin : done + 1 ≤ j ∧ j < done + 1 + k
      · rw [if_pos hin, if_pos (by omega)]
      · rw [if_neg hin, if_neg (by omega)]

def labelled (tickets : List Ticket) (tracks : List Track) : List (ℕ × Sample) :=
  (tracks.filter fun t ↦ !isCancelled tickets t.id).flatMap fun t ↦ t.samples.map (t.id, ·)

/-- What is still to be played, and of which packet. -/
def due (p : Playback) : List (ℕ × Sample) := labelled p.tickets p.line

theorem pending_eq_map_due (p : Playback) : p.pending = p.due.map Prod.snd := by
  rw [due, labelled, List.map_flatMap]
  simp [Function.comp_def, pending, line]

theorem labelled_cons_of_cancelled (h : isCancelled tickets t.id = true) (tracks : List Track) :
    labelled tickets (t :: tracks) = labelled tickets tracks := by
  rw [labelled, List.filter_cons_of_neg (by simp [h]), labelled]

theorem labelled_cons_of_live (h : isCancelled tickets t.id = false) (tracks : List Track) :
    labelled tickets (t :: tracks) = t.samples.map (t.id, ·) ++ labelled tickets tracks := by
  rw [labelled, List.filter_cons_of_pos (by simp [h]), List.flatMap_cons, labelled]

theorem labelled_setFate (fate : Fate) (tickets : List Ticket) (id : ℕ) (tracks : List Track) :
    labelled (setFate fate tickets id) tracks = labelled tickets tracks := by
  simp only [labelled, isCancelled_setFate]

theorem mem_labelled {i : ℕ} {s : Sample} :
    (i, s) ∈ labelled tickets tracks ↔
      ∃ t ∈ tracks, isCancelled tickets t.id = false ∧ t.id = i ∧ s ∈ t.samples := by
  simp only [labelled, List.mem_flatMap, List.mem_filter, List.mem_map, Prod.mk.injEq,
    Bool.not_eq_true']
  constructor
  · rintro ⟨t, ⟨ht, hlive⟩, s, hs, hid, rfl⟩
    exact ⟨t, ht, hlive, hid, hs⟩
  · rintro ⟨t, ht, hlive, hid, hs⟩
    exact ⟨t, ⟨ht, hlive⟩, s, hs, hid, rfl⟩

theorem getElem?_setFate_leave {fate : Fate} (h : fate = if isCancelled tickets id then .gone else .played)
    (j : ℕ) :
    (setFate fate tickets id)[j]? = (tickets[j]?).map fun t ↦ if j = id then t.leave else t := by
  rw [getElem?_setFate]
  by_cases hj : id = j
  · rw [if_pos hj]
    subst hj
    cases hget : tickets[id]? with
    | none => rfl
    | some t =>
      have hcancelled : isCancelled tickets id = t.cancelled := by rw [isCancelled, hget]; rfl
      simp [h, hcancelled, Ticket.leave]
  · rw [if_neg hj]
    simp [Ne.symm hj]

theorem draw_of_cancelled (h : isCancelled tickets t.id = true) (hn : 0 < n) :
    draw tickets n (t :: tracks) = draw (setFate .gone tickets t.id) n tracks := by
  obtain ⟨n, rfl⟩ := Nat.exists_eq_succ_of_ne_zero hn.ne'
  rw [draw, if_pos h]

theorem draw_of_long (h : isCancelled tickets t.id = false) (hn : 0 < n) (hlong : n < t.samples.length) :
    draw tickets n (t :: tracks) =
      ⟨t.samples.take n, some { t with samples := t.samples.drop n }, tracks, tickets⟩ := by
  obtain ⟨n, rfl⟩ := Nat.exists_eq_succ_of_ne_zero hn.ne'
  rw [draw, if_neg (by rw [h]; exact Bool.false_ne_true), if_pos hlong]

theorem draw_of_short (h : isCancelled tickets t.id = false) (hn : 0 < n)
    (hshort : t.samples.length ≤ n) :
    draw tickets n (t :: tracks) =
      let rest := draw (setFate .played tickets t.id) (n - t.samples.length) tracks
      { rest with samples := t.samples ++ rest.samples } := by
  obtain ⟨n, rfl⟩ := Nat.exists_eq_succ_of_ne_zero hn.ne'
  rw [draw, if_neg (by rw [h]; exact Bool.false_ne_true), if_neg (not_lt.2 hshort)]

/-- What a block does to the packets that wait: the first of them leave the line, and of the next a
part may be played. -/
structure Passed (tickets : List Ticket) (tracks : List Track) (n : ℕ) (left : List ℕ) (d : Draw) :
    Prop where
  samples_eq : d.samples = ((labelled tickets tracks).take n).map Prod.snd
  labelled_eq : labelled tickets d.line = (labelled tickets tracks).drop n
  ids_eq : tracks.map Track.id = left ++ d.line.map Track.id
  tickets_eq : ∀ j, d.tickets[j]? = (tickets[j]?).map fun t ↦ if j ∈ left then t.leave else t
  mem_of_silent : ∀ t ∈ d.line, t.samples = [] → t ∈ tracks
  line_eq_nil : (labelled tickets tracks).length < n → d.line = []

theorem passed_nil {d : Draw} (hsamples : d.samples = []) (hline : d.line = tracks)
    (htickets : d.tickets = tickets) (hn : n = 0 ∨ tracks = []) : Passed tickets tracks n [] d where
  samples_eq := by rcases hn with rfl | rfl <;> simp [hsamples, labelled]
  labelled_eq := by rcases hn with rfl | rfl <;> simp [hline, labelled]
  ids_eq := by rw [hline, List.nil_append]
  tickets_eq j := by simp [htickets]
  mem_of_silent t ht _ := hline ▸ ht
  line_eq_nil h := by
    rcases hn with rfl | rfl
    · exact absurd h (Nat.not_lt_zero _)
    · exact hline

theorem tickets_leave {fate : Fate} {left : List ℕ} {d : Draw}
    (hfate : fate = if isCancelled tickets id then .gone else .played)
    (h : ∀ j, d.tickets[j]? =
      ((setFate fate tickets id)[j]?).map fun t ↦ if j ∈ left then t.leave else t) (j : ℕ) :
    d.tickets[j]? = (tickets[j]?).map fun t ↦ if j ∈ id :: left then t.leave else t := by
  rw [h, getElem?_setFate_leave hfate, Option.map_map]
  congr 1
  funext t
  by_cases hj : j = id <;> by_cases hleft : j ∈ left <;> simp [hj, hleft, Ticket.leave_leave]

theorem exists_passed (tickets : List Ticket) (n : ℕ) (tracks : List Track) :
    ∃ left, Passed tickets tracks n left (draw tickets n tracks) := by
  induction tracks generalizing tickets n with
  | nil => cases n <;> exact ⟨[], passed_nil rfl rfl rfl (.inr rfl)⟩
  | cons t tracks ih =>
    rcases Nat.eq_zero_or_pos n with rfl | hn
    · exact ⟨[], passed_nil rfl rfl rfl (.inl rfl)⟩
    · rcases Bool.eq_false_or_eq_true (isCancelled tickets t.id) with hcancelled | hlive
      · obtain ⟨left, h⟩ := ih (setFate .gone tickets t.id) n
        have hskip := labelled_cons_of_cancelled hcancelled tracks
        rw [draw_of_cancelled hcancelled hn]
        refine ⟨t.id :: left, ?_, ?_, ?_, tickets_leave (by rw [if_pos hcancelled]) h.tickets_eq,
          fun u hu hs ↦ List.mem_cons_of_mem t (h.mem_of_silent u hu hs), ?_⟩
        · rw [hskip, h.samples_eq, labelled_setFate]
        · rw [hskip, ← labelled_setFate, h.labelled_eq, labelled_setFate]
        · rw [List.map_cons, h.ids_eq, List.cons_append]
        · rw [hskip, ← labelled_setFate]
          exact h.line_eq_nil
      · have hplay := labelled_cons_of_live hlive tracks
        have hlength : (t.samples.map (t.id, ·)).length = t.samples.length := List.length_map _
        rcases lt_or_ge n t.samples.length with hlong | hshort
        · have hcut := labelled_cons_of_live (t := { t with samples := t.samples.drop n }) hlive tracks
          rw [draw_of_long hlive hn hlong]
          refine ⟨[], ?_, ?_, rfl, fun j ↦ by simp, ?_, ?_⟩
          · rw [hplay, List.take_append_of_le_length (hlength ▸ hlong.le)]
            simp [← List.map_take, Function.comp_def]
          · rw [hplay, List.drop_append_of_le_length (hlength ▸ hlong.le), ← List.map_drop]
            exact hcut
          · intro u hu hs
            rcases List.mem_cons.1 hu with rfl | hu
            · exact absurd (List.drop_eq_nil_iff.1 hs) (not_le.2 hlong)
            · exact List.mem_cons_of_mem t hu
          · rw [hplay, List.length_append, hlength]
            exact fun h ↦ absurd h (by omega)
        · obtain ⟨left, h⟩ := ih (setFate .played tickets t.id) (n - t.samples.length)
          have hrest := labelled_setFate .played tickets t.id tracks
          rw [draw_of_short hlive hn hshort]
          refine ⟨t.id :: left, ?_, ?_, ?_, tickets_leave (by rw [hlive]; rfl) h.tickets_eq,
            fun u hu hs ↦ List.mem_cons_of_mem t (h.mem_of_silent u hu hs), ?_⟩
          · rw [hplay, List.take_append, List.take_of_length_le (hlength ▸ hshort), hlength,
              List.map_append, List.map_map, ← hrest, ← h.samples_eq]
            simp [Function.comp_def]
          · rw [hplay, List.drop_append, List.drop_of_length_le (hlength ▸ hshort), hlength,
              List.nil_append, ← hrest, ← h.labelled_eq, labelled_setFate]
            rfl
          · rw [List.map_cons, h.ids_eq, List.cons_append]
            rfl
          · rw [hplay, List.length_append, hlength]
            intro hless
            refine h.line_eq_nil ?_
            rw [hrest]
            omega

theorem draw_add (hk : 0 < k) (tickets : List Ticket) (n : ℕ) (tracks : List Track) :
    draw tickets (n + k) tracks =
      let d := draw tickets n tracks
      let d' := draw d.tickets k d.line
      { d' with samples := d.samples ++ d'.samples } := by
  induction tracks generalizing tickets n with
  | nil =>
    obtain ⟨k, rfl⟩ := Nat.exists_eq_succ_of_ne_zero hk.ne'
    cases n <;> rfl
  | cons t tracks ih =>
    rcases Nat.eq_zero_or_pos n with rfl | hn
    · rw [Nat.zero_add]
      rfl
    · have hsum : 0 < n + k := Nat.add_pos_left hn k
      rcases Bool.eq_false_or_eq_true (isCancelled tickets t.id) with hcancelled | hlive
      · rw [draw_of_cancelled hcancelled hn, draw_of_cancelled hcancelled hsum, ih]
      · rcases lt_or_ge n t.samples.length with hlong | hshort
        · rw [draw_of_long hlive hn hlong]
          -- the second block begins with the rest of the packet, under the same number
          let rest : Track := { t with samples := t.samples.drop n }
          have hrest : rest.samples.length = t.samples.length - n := List.length_drop
          dsimp only [Draw.line, Option.toList_some, List.singleton_append]
          rcases lt_or_ge (n + k) t.samples.length with hlonger | hshorter
          · rw [draw_of_long hlive hsum hlonger, draw_of_long (t := rest) hlive hk (by omega)]
            simp only [rest, List.take_add, List.drop_drop]
          · rw [draw_of_short hlive hsum hshorter, draw_of_short (t := rest) hlive hk (by omega)]
            dsimp only
            rw [hrest, ← List.append_assoc, List.take_append_drop,
              show n + k - t.samples.length = k - (t.samples.length - n) by omega]
        · rw [draw_of_short hlive hn hshort, draw_of_short hlive hsum (hshort.trans (Nat.le_add_right n k)),
            Nat.sub_add_comm hshort, ih]
          simp only [List.append_assoc, Draw.line]

structure Drawn (tickets : List Ticket) (tracks : List Track) (n done k : ℕ) (d : Draw) : Prop where
  samples_eq : d.samples ++ d.line.flatMap Track.samples = tracks.flatMap Track.samples
  length_le : d.samples.length ≤ n
  line_eq_nil : d.samples.length < n → d.line = []
  tickets_eq : d.tickets = finish tickets done k
  ids : d.line.map Track.id = List.range' (done + k) d.line.length
  length_line : d.line.length + k = tracks.length
  samples_ne : (∀ t ∈ tracks, t.samples ≠ []) → ∀ t ∈ d.line, t.samples ≠ []

theorem map_labelled_of_live (hlive : ∀ id, isCancelled tickets id = false) (tracks : List Track) :
    (labelled tickets tracks).map Prod.snd = tracks.flatMap Track.samples := by
  rw [labelled, List.filter_eq_self.2 fun t _ ↦ by rw [hlive]; rfl, List.map_flatMap]
  simp [Function.comp_def]

theorem exists_drawn (hids : tracks.map Track.id = List.range' done tracks.length)
    (hlive : ∀ id, isCancelled tickets id = false) :
    ∃ k, Drawn tickets tracks n done k (draw tickets n tracks) := by
  obtain ⟨left, h⟩ := exists_passed tickets n tracks
  generalize draw tickets n tracks = d at h
  have hlength : left.length + d.line.length = tracks.length := by
    have hids_length := congrArg List.length h.ids_eq
    simpa using hids_length.symm
  obtain ⟨hleft, hline⟩ : left = List.range' done left.length ∧
      d.line.map Track.id = List.range' (done + left.length) d.line.length := by
    refine List.append_inj ?_ List.length_range'.symm
    rw [← h.ids_eq, hids, ← hlength, List.range'_append_1]
  refine ⟨left.length, ?_, ?_, ?_, ?_, hline, (Nat.add_comm _ _).trans hlength, ?_⟩
  · rw [h.samples_eq, ← map_labelled_of_live hlive, h.labelled_eq, ← List.map_append,
      List.take_append_drop, map_labelled_of_live hlive]
  · rw [h.samples_eq, List.length_map]
    exact List.length_take_le _ _
  · intro hless
    rw [h.samples_eq, List.length_map, List.length_take] at hless
    exact h.line_eq_nil (by omega)
  · refine List.ext_getElem? fun j ↦ ?_
    have hmem : j ∈ left ↔ done ≤ j ∧ j < done + left.length := by
      rw [hleft, List.mem_range'_1, List.length_range']
    rw [h.tickets_eq, getElem?_finish]
    cases hget : tickets[j]? with
    | none => simp
    | some t =>
      have hticket : t.cancelled = false := by
        have hj := hlive j
        rwa [isCancelled, hget] at hj
      by_cases hj : j ∈ left
      · simp [hj, hmem.1 hj, Ticket.leave, hticket]
      · simp [hj, mt hmem.2 hj]
  · exact fun hne u hu hs ↦ hne u (h.mem_of_silent u hu hs) hs

/-- Playback that nobody has disturbed: tickets from number `done` on belong to the packets that
wait, and no packet is cancelled. -/
structure Orderly (p : Playback) (done : ℕ) : Prop where
  connected : p.connected = true
  live : ∀ id, isCancelled p.tickets id = false
  ids : p.line.map Track.id = List.range' done p.line.length
  length_tickets : done + p.line.length = p.tickets.length
  fate_eq : ∀ id t, done ≤ id → p.tickets[id]? = some t → t.fate = .pending
  samples_ne : ∀ t ∈ p.line, t.samples ≠ []

variable {p : Playback}

theorem orderly_empty : Orderly {} 0 where
  connected := rfl
  live _ := rfl
  ids := rfl
  length_tickets := rfl
  fate_eq _ _ _ h := by cases h
  samples_ne _ h := by cases h

theorem Orderly.pending_eq (h : p.Orderly done) : p.pending = p.line.flatMap Track.samples := by
  rw [pending, List.filter_eq_self.2 fun t _ ↦ by rw [h.live]; rfl]
  rfl

theorem Orderly.line_eq_nil (h : p.Orderly done) (hpending : p.pending = []) : p.line = [] := by
  rw [h.pending_eq, List.flatMap_eq_nil_iff] at hpending
  exact List.eq_nil_iff_forall_not_mem.2 fun t ht ↦ h.samples_ne t ht (hpending t ht)

theorem isCancelled_issue (tickets : List Ticket) (id : ℕ) :
    isCancelled (tickets ++ [({} : Ticket)]) id = isCancelled tickets id := by
  rw [isCancelled, isCancelled, List.getElem?_append]
  split
  · rfl
  · rename_i hid
    rw [List.getElem?_eq_none (not_lt.1 hid)]
    cases id - tickets.length <;> rfl

theorem Orderly.enqueue (h : p.Orderly done) {samples : List Sample} (hne : samples ≠ []) :
    ∃ p' : Playback, p.enqueue samples = .ok (p', p.tickets.length) ∧ p'.Orderly done ∧
      p'.pending = p.pending ++ samples ∧ p'.tickets = p.tickets ++ [({} : Ticket)] := by
  obtain ⟨p', hp'⟩ : ∃ p' : Playback, p' = { p with
      queue := p.queue ++ [⟨p.tickets.length, samples⟩], tickets := p.tickets ++ [{}] } := ⟨_, rfl⟩
  have hline : p'.line = p.line ++ [⟨p.tickets.length, samples⟩] := by
    rw [hp', line, line, List.append_assoc]
  have htickets : p'.tickets = p.tickets ++ [({} : Ticket)] := by rw [hp']
  have hlength := h.length_tickets
  have horderly : p'.Orderly done := by
    constructor
    · rw [hp']
      exact h.connected
    · rw [htickets]
      exact fun id ↦ (isCancelled_issue _ id).trans (h.live id)
    · rw [hline, List.map_append, h.ids, List.length_append, List.map_singleton,
        List.length_singleton, List.range'_1_concat, hlength]
    · rw [hline, htickets, List.length_append, List.length_append, ← hlength, Nat.add_assoc]
      rfl
    · intro id t hid ht
      rw [htickets, List.getElem?_append] at ht
      split at ht
      · exact h.fate_eq id t hid ht
      · rw [List.getElem?_singleton] at ht
        split at ht <;> cases ht
        rfl
    · intro t ht
      rw [hline] at ht
      rcases List.mem_append.1 ht with ht | ht
      · exact h.samples_ne t ht
      · rw [List.mem_singleton.1 ht]
        exact hne
  refine ⟨p', ?_, horderly, ?_, htickets⟩
  · rw [Playback.enqueue, if_pos h.connected, hp']
  · rw [horderly.pending_eq, h.pending_eq, hline, List.flatMap_append, List.flatMap_singleton]

theorem isCancelled_finish (tickets : List Ticket) (done k j : ℕ) :
    isCancelled (finish tickets done k) j = isCancelled tickets j := by
  induction k generalizing tickets done with
  | zero => rfl
  | succ k ih => rw [finish_succ, ih, isCancelled_setFate]

theorem Orderly.write (h : p.Orderly done) (hn : 0 < n) : ∃ k z,
    (p.write n).1.Orderly (done + k) ∧ (p.write n).2.length = n ∧
      (p.write n).2 ++ (p.write n).1.pending = p.pending ++ List.replicate z 0 ∧
      ((p.write n).1.pending ≠ [] → z = 0) ∧ (p.write n).1.tickets = finish p.tickets done k := by
  obtain ⟨k, hk⟩ := exists_drawn (n := n) h.ids h.live
  generalize hd : draw p.tickets n p.line = d at hk
  have hwrite : p.write n = ({ p with current := d.current, queue := d.queue, tickets := d.tickets },
      d.samples ++ List.replicate (n - d.samples.length) 0) := by
    rw [← hd, Playback.write, if_neg hn.ne']
    rfl
  have hline : (p.write n).1.line = d.line := by rw [hwrite]; rfl
  have htickets : (p.write n).1.tickets = finish p.tickets done k := by
    rw [hwrite]
    exact hk.tickets_eq
  have horderly : (p.write n).1.Orderly (done + k) := by
    constructor
    · rw [hwrite]
      exact h.connected
    · intro id
      rw [htickets, isCancelled_finish, h.live]
    · rw [hline]
      exact hk.ids
    · have hlength := hk.length_line
      have hall := h.length_tickets
      rw [hline, htickets, length_finish]
      omega
    · intro id t hid ht
      rw [htickets, getElem?_finish, if_neg (by omega)] at ht
      exact h.fate_eq id t (by omega) ht
    · rw [hline]
      exact hk.samples_ne h.samples_ne
  have hle := hk.length_le
  have hpending : (p.write n).1.pending = d.line.flatMap Track.samples := by
    rw [horderly.pending_eq, hline]
  refine ⟨k, n - d.samples.length, horderly, ?_, ?_, ?_, htickets⟩
  · rw [hwrite, List.length_append, List.length_replicate]
    omega
  · rw [hpending, h.pending_eq, ← hk.samples_eq, hwrite]
    rcases Nat.lt_or_ge d.samples.length n with hlt | hge
    · rw [hk.line_eq_nil hlt, List.flatMap_nil, List.append_nil, List.append_nil]
    · rw [Nat.sub_eq_zero_of_le hge, List.replicate_zero, List.append_nil, List.append_nil]
  · intro hne
    by_contra hz
    rw [hpending, hk.line_eq_nil (by omega)] at hne
    exact hne rfl

theorem Ticket.cancelled_collect (t : Ticket) : t.collect.1.cancelled = t.cancelled := by
  unfold Ticket.collect
  split <;> rfl

theorem collect_of_none (hget : p.tickets[id]? = none) : p.collect id = (p, .gone) := by
  rw [collect, hget]

theorem collect_of_some {t : Ticket} (hget : p.tickets[id]? = some t) :
    p.collect id = ({ p with tickets := p.tickets.set id t.collect.1 }, t.fate) := by
  rw [collect, hget]
  rfl

theorem getElem?_collect {t : Ticket} (hget : p.tickets[id]? = some t) (j : ℕ) :
    (p.collect id).1.tickets[j]? = if id = j then some t.collect.1 else p.tickets[j]? := by
  have hlt := (List.getElem?_eq_some_iff.1 hget).1
  rw [collect_of_some hget, List.getElem?_set, if_pos hlt]

theorem length_collect (p : Playback) (id : ℕ) :
    (p.collect id).1.tickets.length = p.tickets.length := by
  cases hget : p.tickets[id]? with
  | none => rw [collect_of_none hget]
  | some t => rw [collect_of_some hget, List.length_set]

theorem connected_collect (p : Playback) (id : ℕ) : (p.collect id).1.connected = p.connected := by
  cases hget : p.tickets[id]? with
  | none => rw [collect_of_none hget]
  | some t => rw [collect_of_some hget]

theorem line_collect (p : Playback) (id : ℕ) : (p.collect id).1.line = p.line := by
  cases hget : p.tickets[id]? with
  | none => rw [collect_of_none hget]
  | some t =>
    rw [collect_of_some hget]
    rfl

theorem isCancelled_collect (p : Playback) (id j : ℕ) :
    isCancelled (p.collect id).1.tickets j = isCancelled p.tickets j := by
  cases hget : p.tickets[id]? with
  | none => rw [collect_of_none hget]
  | some t =>
    rw [isCancelled, getElem?_collect hget, isCancelled]
    split
    · rename_i hj
      rw [← hj, hget]
      exact Ticket.cancelled_collect t
    · rfl

theorem Orderly.collect (h : p.Orderly done) (id : ℕ) :
    (p.collect id).1.Orderly done ∧ (p.collect id).1.pending = p.pending := by
  have hline := line_collect p id
  have horderly : (p.collect id).1.Orderly done := by
    refine ⟨(connected_collect p id).trans h.connected,
      fun j ↦ (isCancelled_collect p id j).trans (h.live j), hline ▸ h.ids, ?_, fun j u hj hu ↦ ?_,
      hline ▸ h.samples_ne⟩
    · rw [hline, h.length_tickets, length_collect]
    · cases hget : p.tickets[id]? with
      | none =>
        rw [collect_of_none hget] at hu
        exact h.fate_eq j u hj hu
      | some t =>
        rw [getElem?_collect hget] at hu
        split at hu
        · rename_i hid
          have hfate := h.fate_eq id t (hid ▸ hj) hget
          cases hu
          rw [Ticket.collect, hfate]
          exact hfate
        · exact h.fate_eq j u hj hu
  exact ⟨horderly, by rw [horderly.pending_eq, h.pending_eq, hline]⟩

theorem isPlayed_enqueue {p' : Playback} (h : p'.tickets = p.tickets ++ [({} : Ticket)]) (id : ℕ) :
    p'.isPlayed id = p.isPlayed id := by
  rw [isPlayed, h, List.getElem?_append, isPlayed]
  split
  · rfl
  · rename_i hid
    rw [List.getElem?_eq_none (not_lt.1 hid)]
    cases id - p.tickets.length <;> rfl

theorem isPlayed_finish {p' : Playback} {k : ℕ} (h : p'.tickets = finish p.tickets done k)
    (hk : done + k ≤ p.tickets.length) (id : ℕ) :
    p'.isPlayed id = if done ≤ id ∧ id < done + k then true else p.isPlayed id := by
  rw [isPlayed, h, getElem?_finish]
  split
  · rw [List.getElem?_eq_getElem (by omega)]
    rfl
  · rfl

theorem fate_collect (p : Playback) (id : ℕ) : (p.collect id).2 = .played ↔ p.isPlayed id = true := by
  cases hget : p.tickets[id]? with
  | none => simp [collect_of_none hget, isPlayed, hget]
  | some t => simp [collect_of_some hget, isPlayed, hget]

theorem isPlayed_collect (p : Playback) (id j : ℕ) :
    (p.collect id).1.isPlayed j = if id = j then false else p.isPlayed j := by
  cases hget : p.tickets[id]? with
  | none =>
    rw [collect_of_none hget]
    split
    · rename_i hj
      rw [isPlayed, ← hj, hget]
      rfl
    · rfl
  | some t =>
    rw [isPlayed, getElem?_collect hget, isPlayed]
    split
    · by_cases hplayed : t.fate = .played <;> simp [Ticket.collect, hplayed]
    · rfl

/-- The end of each packet with a number below `done` has been signalled once, and of no other: it
was told, or still waits to be told. -/
def Signalled (p : Playback) (told : List (ℕ × Fate)) (done : ℕ) : Prop :=
  ∀ id, told.count (id, .played) + (if p.isPlayed id then 1 else 0) = if id < done then 1 else 0

variable {told : List (ℕ × Fate)}

theorem signalled_empty : Signalled {} [] 0 := fun _ ↦ rfl

theorem Signalled.enqueue (h : p.Signalled told done) {p' : Playback}
    (hp' : p'.tickets = p.tickets ++ [({} : Ticket)]) : p'.Signalled told done := by
  intro id
  rw [isPlayed_enqueue hp']
  exact h id

theorem Signalled.write (h : p.Signalled told done) {p' : Playback} {k : ℕ}
    (hp' : p'.tickets = finish p.tickets done k) (hk : done + k ≤ p.tickets.length) :
    p'.Signalled told (done + k) := by
  intro id
  rw [isPlayed_finish hp' hk]
  by_cases hnew : done ≤ id ∧ id < done + k
  · have hnone := (h id).trans (if_neg (not_lt.2 hnew.1))
    rw [if_pos hnew, if_pos rfl, if_pos hnew.2]
    omega
  · have hold : id < done ↔ id < done + k := by omega
    rw [if_neg hnew, h id]
    simp only [hold]

theorem Signalled.collect (h : p.Signalled told done) (id : ℕ) :
    (p.collect id).1.Signalled (told ++ [(id, (p.collect id).2)]) done := by
  intro j
  rw [List.count_append, isPlayed_collect, ← h j, Nat.add_assoc, List.count_singleton]
  congr 1
  have hfate := fate_collect p id
  by_cases hj : id = j
  · subst hj
    by_cases hnow : p.isPlayed id = true
    · rw [hfate.2 hnow]
      simp [hnow]
    · simp [hnow, mt hfate.1 hnow]
  · simp [hj]

end Playback

end SoundLink
