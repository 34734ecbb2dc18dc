import SoundLink.Frame.Modulator
import SoundLink.Proofs.Playback

namespace SoundLink

namespace Playback

variable {p : Playback} {tickets : List Ticket} {tracks : List Track} {t : Track} {n k id : ℕ}

/-- The first `n` samples of a stream, and silence once it has ended. -/
def fill (n : ℕ) (xs : List Sample) : List Sample := xs.take n ++ List.replicate (n - xs.length) 0

theorem fill_add (n k : ℕ) (xs : List Sample) : fill (n + k) xs = fill n xs ++ fill k (xs.drop n) := by
  rw [fill, fill, fill, List.take_add, List.length_drop]
  rcases Nat.le_total n xs.length with hle | hle
  · rw [Nat.sub_eq_zero_of_le hle, List.replicate_zero, List.append_nil, List.append_assoc,
      show n + k - xs.length = k - (xs.length - n) by omega]
  · rw [List.drop_of_length_le hle, List.take_nil, List.append_nil, List.nil_append, List.append_assoc,
      List.replicate_append_replicate,
      show n - xs.length + (k - (xs.length - n)) = n + k - xs.length by omega]

structure Advances (p : Playback) (n : ℕ) (left : List ℕ) (p' : Playback) : Prop where
  connected_eq : p'.connected = p.connected
  due_eq : p'.due = p.due.drop n
  ids_eq : p.line.map Track.id = left ++ p'.line.map Track.id
  tickets_eq : ∀ j, p'.tickets[j]? = (p.tickets[j]?).map fun t ↦ if j ∈ left then t.leave else t
  mem_of_silent : ∀ t ∈ p'.line, t.samples = [] → t ∈ p.line
  line_eq_nil : p.due.length < n → p'.line = []

theorem isCancelled_of_leave {tickets' : List Ticket} {left : List ℕ}
    (h : ∀ j, tickets'[j]? = (tickets[j]?).map fun t ↦ if j ∈ left then t.leave else t) (j : ℕ) :
    isCancelled tickets' j = isCancelled tickets j := by
  rw [isCancelled, h, isCancelled, Option.any_map]
  congr 1
  funext t
  by_cases hj : j ∈ left <;> simp [hj, Ticket.leave]

theorem write_of_pos (hn : 0 < n) :
    p.write n = (let d := draw p.tickets n p.line
      ({ p with current := d.current, queue := d.queue, tickets := d.tickets },
        d.samples ++ List.replicate (n - d.samples.length) 0)) := by
  rw [write, if_neg hn.ne']
  rfl

theorem exists_advances (p : Playback) (n : ℕ) :
    (∃ left, Advances p n left (p.write n).1) ∧ (p.write n).2 = fill n p.pending := by
  rcases Nat.eq_zero_or_pos n with rfl | hn
  · exact ⟨⟨[], rfl, rfl, rfl, fun j ↦ by simp [write], fun _ ht _ ↦ ht,
      fun h ↦ absurd h (Nat.not_lt_zero _)⟩, by simp [write, fill]⟩
  · obtain ⟨left, h⟩ := exists_passed p.tickets n p.line
    have hlive := isCancelled_of_leave h.tickets_eq
    rw [write_of_pos hn]
    refine ⟨⟨left, rfl, ?_, h.ids_eq, h.tickets_eq, h.mem_of_silent, h.line_eq_nil⟩, ?_⟩
    · rw [due, due, ← h.labelled_eq]
      simp only [labelled, hlive]
      rfl
    · dsimp only
      rw [fill, pending_eq_map_due, ← List.map_take, h.samples_eq, List.length_map, List.length_map, due,
        List.length_take]
      congr 2
      omega

theorem write_add (p : Playback) (n k : ℕ) :
    p.write (n + k) = (((p.write n).1.write k).1, (p.write n).2 ++ ((p.write n).1.write k).2) := by
  have houtput : (p.write (n + k)).2 = (p.write n).2 ++ ((p.write n).1.write k).2 := by
    obtain ⟨⟨left, h⟩, hn⟩ := exists_advances p n
    rw [(exists_advances p _).2, hn, (exists_advances _ k).2, fill_add, pending_eq_map_due (p.write n).1,
      h.due_eq, List.map_drop, ← pending_eq_map_due]
  refine Prod.ext ?_ houtput
  -- an empty block leaves the packet that is being played where it is, so it is not a draw of nothing
  rcases Nat.eq_zero_or_pos n with rfl | hn
  · rw [Nat.zero_add]
    rfl
  · rcases Nat.eq_zero_or_pos k with rfl | hk
    · rfl
    · rw [write_of_pos (Nat.add_pos_left hn k), write_of_pos hn, write_of_pos hk, draw_add hk]
      rfl

inductive Request
  | send (bytes : List UInt8)
  | cancel (id : ℕ)
  | write (n : ℕ)
  | poll (id : ℕ)

structure Record where
  playback : Playback := {}
  played : List Sample := []
  told : List (ℕ × Fate) := []

def waiting (p : Playback) : List ℕ := p.line.map Track.id

namespace Record

variable (m : Modulator) (r : Record)

def send (bytes : List UInt8) : Record :=
  match m.modulate bytes with
  | .error _ => r
  | .ok samples => match r.playback.enqueue samples with
    | .error _ => r
    | .ok (playback, _) => { r with playback }

def cancel (id : ℕ) : Record := { r with playback := r.playback.cancel id }

def write (n : ℕ) : Record :=
  { r with playback := (r.playback.write n).1, played := r.played ++ (r.playback.write n).2 }

def poll (id : ℕ) : Record :=
  { r with playback := (r.playback.collect id).1, told := r.told ++ [(id, (r.playback.collect id).2)] }

def handle : Request → Record
  | .send bytes => r.send m bytes
  | .cancel id => r.cancel id
  | .write n => r.write n
  | .poll id => r.poll id

def run (requests : List Request) : Record := requests.foldl (handle m) r

/-- How often the end of a packet has been signalled: each time that it was told, and once more if
it still waits to be told. -/
def fired (id : ℕ) : ℕ := r.told.count (id, .played) + if r.playback.isPlayed id then 1 else 0

end Record

theorem waiting_collect (p : Playback) (id : ℕ) : (p.collect id).1.waiting = p.waiting :=
  congrArg (List.map Track.id) (line_collect p id)

theorem Record.count_poll (r : Record) (id j : ℕ) :
    (r.poll id).told.count (j, .played) =
      r.told.count (j, .played) + if id = j ∧ (r.playback.collect id).2 = .played then 1 else 0 := by
  simp [poll, List.count_append, List.count_singleton]

/-- The ticket of a packet that waits or has left the line, and how often its end was told. -/
inductive Stands (waits : Prop) : Ticket → ℕ → Prop
  | waiting (h : waits) (cancelled : Bool) : Stands waits ⟨.pending, cancelled⟩ 0
  | played (h : ¬waits) (cancelled : Bool) : Stands waits ⟨.played, cancelled⟩ 0
  | told (h : ¬waits) (cancelled : Bool) : Stands waits ⟨.gone, cancelled⟩ 1
  | skipped (h : ¬waits) : Stands waits ⟨.gone, true⟩ 0

namespace Stands

variable {waits waits' : Prop} {ticket : Ticket} {count : ℕ}

theorem cancel (h : Stands waits ticket count) : Stands waits { ticket with cancelled := true } count := by
  cases h with
  | waiting h => exact .waiting h true
  | played h => exact .played h true
  | told h => exact .told h true
  | skipped h => exact .skipped h

theorem leave (h : Stands waits ticket count) (hwaits : waits) (hleft : ¬waits') :
    Stands waits' ticket.leave count := by
  cases h with
  | waiting h cancelled =>
    cases cancelled with
    | false => exact .played hleft false
    | true => exact .skipped hleft
  | played h | told h | skipped h => exact absurd hwaits h

theorem fate_eq (h : Stands waits ticket count) (hwaits : waits) : ticket.fate = .pending := by
  cases h with
  | waiting => rfl
  | played h | told h | skipped h => exact absurd hwaits h

theorem collect (h : Stands waits ticket count) :
    Stands waits ticket.collect.1 (count + if ticket.fate = .played then 1 else 0) := by
  cases h with
  | waiting h cancelled => exact .waiting h cancelled
  | played h cancelled => exact .told h cancelled
  | told h cancelled => exact .told h cancelled
  | skipped h => exact .skipped h

end Stands

structure Accounted (r : Record) : Prop where
  connected : r.playback.connected = true
  nodup : r.playback.waiting.Nodup
  stands : ∀ id t, r.playback.tickets[id]? = some t →
    Stands (id ∈ r.playback.waiting) t (r.told.count (id, .played))
  fresh : ∀ id, r.playback.tickets.length ≤ id →
    id ∉ r.playback.waiting ∧ r.told.count (id, .played) = 0

namespace Accounted

variable {r : Record} (h : Accounted r)
include h

theorem send (m : Modulator) (bytes : List UInt8) : Accounted (r.send m bytes) := by
  unfold Record.send
  split
  · exact h
  · rename_i samples _
    have hfresh := h.fresh r.playback.tickets.length le_rfl
    rw [enqueue, if_pos h.connected]
    dsimp only
    have hwaiting : ∀ {queue tickets}, ({ r.playback with
        queue := r.playback.queue ++ [⟨queue, samples⟩], tickets } : Playback).waiting =
          r.playback.waiting ++ [queue] := by simp [waiting, line]
    refine ⟨h.connected, ?_, fun id t ht ↦ ?_, fun id hid ↦ ?_⟩
    · rw [hwaiting, List.nodup_append]
      refine ⟨h.nodup, List.nodup_singleton _, fun a ha b hb hab ↦ hfresh.1 ?_⟩
      rwa [← List.mem_singleton.1 hb, ← hab]
    · dsimp only at ht
      rw [hwaiting, List.mem_append, List.mem_singleton]
      rw [List.getElem?_append] at ht
      split at ht
      · rename_i hlt
        have hne : id ≠ r.playback.tickets.length := hlt.ne
        simpa only [hne, or_false] using h.stands id t ht
      · rename_i hlt
        rw [List.getElem?_singleton] at ht
        split at ht <;> cases ht
        obtain rfl : id = r.playback.tickets.length := by omega
        rw [hfresh.2]
        exact .waiting (.inr rfl) false
    · dsimp only at hid
      rw [List.length_append, List.length_singleton] at hid
      rw [hwaiting, List.mem_append, List.mem_singleton, not_or]
      have hold := h.fresh id (by omega)
      exact ⟨⟨hold.1, by omega⟩, hold.2⟩

theorem cancel (id : ℕ) : Accounted (r.cancel id) := by
  refine ⟨h.connected, h.nodup, fun j t ht ↦ ?_, fun j hj ↦ h.fresh j ?_⟩
  · simp only [Record.cancel, Playback.cancel, List.getElem?_modify] at ht
    obtain ⟨t, hget, rfl⟩ := Option.map_eq_some_iff.1 ht
    split
    · exact (h.stands j t hget).cancel
    · exact h.stands j t hget
  · simpa [Record.cancel, Playback.cancel] using hj

theorem poll (id : ℕ) : Accounted (r.poll id) := by
  have hsame := waiting_collect r.playback id
  refine ⟨(connected_collect _ id).trans h.connected, hsame ▸ h.nodup, fun j t ht ↦ ?_, fun j hj ↦ ?_⟩
  · rw [Record.count_poll, Record.poll, hsame]
    cases hget : r.playback.tickets[id]? with
    | none =>
      rw [Record.poll, collect_of_none hget] at ht
      simpa [collect_of_none hget] using h.stands j t ht
    | some ticket =>
      rw [Record.poll, getElem?_collect hget] at ht
      rw [collect_of_some hget]
      by_cases hj : id = j
      · subst hj
        obtain rfl : ticket.collect.1 = t := by simpa using ht
        simpa using (h.stands id ticket hget).collect
      · rw [if_neg hj] at ht
        simpa [hj] using h.stands j t ht
  · rw [Record.poll, length_collect] at hj
    have hfate : ¬(id = j ∧ (r.playback.collect id).2 = .played) := by
      rintro ⟨rfl, hfate⟩
      rw [collect_of_none (List.getElem?_eq_none hj)] at hfate
      cases hfate
    rw [Record.count_poll, if_neg hfate, Record.poll, hsame]
    exact h.fresh j hj

theorem not_mem_waiting {left : List ℕ} {p : Playback} {n : ℕ} (hp : Advances r.playback n left p)
    {id : ℕ} (hid : id ∈ left) : id ∉ p.waiting := by
  have hnodup := h.nodup
  rw [waiting, hp.ids_eq, List.nodup_append] at hnodup
  exact fun hmem ↦ hnodup.2.2 id hid id hmem rfl

theorem write (n : ℕ) : Accounted (r.write n) := by
  obtain ⟨⟨left, hp⟩, -⟩ := exists_advances r.playback n
  have hwaiting : r.playback.waiting = left ++ (r.write n).playback.waiting := hp.ids_eq
  refine ⟨hp.connected_eq.trans h.connected, ?_, fun id t ht ↦ ?_, fun id hid ↦ ?_⟩
  · exact (List.nodup_append.1 (hwaiting ▸ h.nodup)).2.1
  · obtain ⟨t, hget, rfl⟩ := Option.map_eq_some_iff.1 ((hp.tickets_eq id).symm.trans ht)
    have hstands := h.stands id t hget
    rw [hwaiting] at hstands
    split
    · rename_i hid
      exact hstands.leave (List.mem_append_left _ hid) (h.not_mem_waiting hp hid)
    · rename_i hid
      simp only [List.mem_append, hid, false_or] at hstands
      exact hstands
  · have hnone : (r.write n).playback.tickets[id]? = none := List.getElem?_eq_none hid
    have hget := Option.map_eq_none_iff.1 ((hp.tickets_eq id).symm.trans hnone)
    have hold := h.fresh id (List.getElem?_eq_none_iff.1 hget)
    rw [hwaiting, List.mem_append, not_or] at hold
    exact ⟨hold.1.2, hold.2⟩

theorem handle (m : Modulator) (request : Request) : Accounted (r.handle m request) := by
  cases request with
  | send bytes => exact h.send m bytes
  | cancel id => exact h.cancel id
  | write n => exact h.write n
  | poll id => exact h.poll id

theorem run (m : Modulator) (requests : List Request) : Accounted (r.run m requests) := by
  induction requests generalizing r with
  | nil => exact h
  | cons request requests ih => exact ih (h.handle m request)

end Accounted

theorem accounted_empty : Accounted {} where
  connected := rfl
  nodup := List.nodup_nil
  stands _ _ h := by cases h
  fresh _ _ := ⟨List.not_mem_nil, rfl⟩

namespace Accounted

variable {r : Record} (h : Accounted r)
include h

theorem fired_write {left : List ℕ} (hp : Advances r.playback n left (r.write n).playback) (id : ℕ) :
    (r.write n).fired id =
      r.fired id + if id ∈ left ∧ isCancelled r.playback.tickets id = false then 1 else 0 := by
  rw [Record.fired, Record.fired, isPlayed, isPlayed, hp.tickets_eq id, isCancelled]
  cases hget : r.playback.tickets[id]? with
  | none =>
    have hid : id ∉ left := fun hid ↦ (h.fresh id (List.getElem?_eq_none_iff.1 hget)).1 (by
      rw [waiting, hp.ids_eq]
      exact List.mem_append_left _ hid)
    simp [hid, Record.write]
  | some t =>
    by_cases hid : id ∈ left
    · have hin : id ∈ r.playback.waiting := by
        rw [waiting, hp.ids_eq]
        exact List.mem_append_left _ hid
      have hpending := (h.stands id t hget).fate_eq hin
      cases hcancelled : t.cancelled <;> simp [hid, hpending, hcancelled, Ticket.leave, Record.write]
    · simp [hid, Record.write]

theorem mem_left_iff {left : List ℕ} (hp : Advances r.playback n left (r.write n).playback) {id : ℕ}
    (hdue : id ∈ r.playback.due.map Prod.fst) :
    id ∈ left ↔ id ∉ (r.write n).playback.due.map Prod.fst := by
  obtain ⟨⟨_, s⟩, hs, rfl⟩ := List.mem_map.1 hdue
  obtain ⟨t, ht, hlive, rfl, hsample⟩ := mem_labelled.1 hs
  constructor
  · intro hleft hmem
    obtain ⟨⟨_, s'⟩, hs', heq⟩ := List.mem_map.1 hmem
    obtain ⟨u, hu, -, hid, -⟩ := mem_labelled.1 hs'
    exact h.not_mem_waiting hp hleft (List.mem_map.2 ⟨u, hu, hid.trans heq⟩)
  · -- what stays in line without a sample to play had none before
    intro hnone
    by_contra hstay
    have hid : t.id ∈ left ++ (r.write n).playback.line.map Track.id :=
      hp.ids_eq ▸ List.mem_map_of_mem ht
    obtain ⟨u, hu, hut⟩ := List.mem_map.1 ((List.mem_append.1 hid).resolve_left hstay)
    have hsound : u.samples ≠ [] := fun hsilent ↦ by
      have hut' := List.inj_on_of_nodup_map h.nodup (hp.mem_of_silent u hu hsilent) ht hut
      rw [← hut', hsilent] at hsample
      cases hsample
    obtain ⟨s', hs'⟩ := List.exists_mem_of_ne_nil _ hsound
    refine hnone (List.mem_map.2 ⟨(t.id, s'), mem_labelled.2 ⟨u, hu, ?_, hut, hs'⟩, rfl⟩)
    rw [isCancelled_of_leave hp.tickets_eq, hut]
    exact hlive

end Accounted

theorem isCancelled_eq_true_iff :
    isCancelled tickets id = true ↔ ∃ t, tickets[id]? = some t ∧ t.cancelled = true := by
  rw [isCancelled, Option.any_eq_true]

theorem tickets_send (m : Modulator) (r : Record) (bytes : List UInt8) :
    (r.send m bytes).playback.tickets = r.playback.tickets ∨
      (r.send m bytes).playback.tickets = r.playback.tickets ++ [({} : Ticket)] := by
  unfold Record.send enqueue
  split
  · exact .inl rfl
  · by_cases hconnected : r.playback.connected = true
    · rw [if_pos hconnected]
      exact .inr rfl
    · rw [if_neg hconnected]
      exact .inl rfl

theorem told_send (m : Modulator) (r : Record) (bytes : List UInt8) :
    (r.send m bytes).told = r.told := by
  unfold Record.send
  split
  · rfl
  · split <;> rfl

theorem isCancelled_handle (m : Modulator) {r : Record} (request : Request)
    (hid : isCancelled r.playback.tickets id = true) :
    isCancelled (r.handle m request).playback.tickets id = true := by
  obtain ⟨t, hget, hcancelled⟩ := isCancelled_eq_true_iff.1 hid
  cases request with
  | send bytes =>
    rcases tickets_send m r bytes with h | h
    · rwa [Record.handle, h]
    · rw [Record.handle, h, isCancelled, List.getElem?_append_left (List.getElem?_eq_some_iff.1 hget).1]
      exact hid
  | cancel j =>
    refine isCancelled_eq_true_iff.2 ⟨if j = id then { t with cancelled := true } else t, ?_, ?_⟩
    · simp [Record.handle, Record.cancel, Playback.cancel, List.getElem?_modify, hget]
    · split
      · rfl
      · exact hcancelled
  | write n =>
    obtain ⟨⟨left, hp⟩, -⟩ := exists_advances r.playback n
    exact (isCancelled_of_leave hp.tickets_eq id).trans hid
  | poll j => exact (isCancelled_collect r.playback j id).trans hid

theorem fired_send (m : Modulator) (r : Record) (bytes : List UInt8) (id : ℕ) :
    (r.send m bytes).fired id = r.fired id := by
  rw [Record.fired, told_send, Record.fired]
  rcases tickets_send m r bytes with h | h
  · rw [isPlayed, h, isPlayed]
  · rw [isPlayed_enqueue h]

theorem fired_cancel (r : Record) (j id : ℕ) : (r.cancel j).fired id = r.fired id := by
  have hplayed : (r.playback.cancel j).isPlayed id = r.playback.isPlayed id := by
    rw [isPlayed, cancel, isPlayed, List.getElem?_modify]
    split <;> cases r.playback.tickets[id]? <;> rfl
  rw [Record.fired, Record.cancel, hplayed, Record.fired]

theorem fired_poll (r : Record) (j id : ℕ) : (r.poll j).fired id = r.fired id := by
  rw [Record.fired, Record.count_poll, Record.poll, isPlayed_collect, Record.fired]
  by_cases hj : j = id
  · subst hj
    by_cases hplayed : r.playback.isPlayed j = true <;> simp [hplayed, fate_collect]
  · simp [hj]

theorem fired_handle_of_cancelled (m : Modulator) {r : Record} (h : Accounted r) (request : Request)
    (hid : isCancelled r.playback.tickets id = true) :
    (r.handle m request).fired id = r.fired id := by
  cases request with
  | send bytes => exact fired_send m r bytes id
  | cancel j => exact fired_cancel r j id
  | write n =>
    obtain ⟨⟨left, hp⟩, -⟩ := exists_advances r.playback n
    rw [Record.handle, h.fired_write hp, if_neg (by simp [hid]), Nat.add_zero]
  | poll j => exact fired_poll r j id

theorem not_mem_due_of_cancelled (h : isCancelled p.tickets id = true) : id ∉ p.due.map Prod.fst := by
  intro hmem
  obtain ⟨⟨_, s⟩, hs, rfl⟩ := List.mem_map.1 hmem
  obtain ⟨t, -, hlive, rfl, -⟩ := mem_labelled.1 hs
  rw [h] at hlive
  cases hlive

theorem run_of_cancelled (m : Modulator) {r : Record} (h : Accounted r) (requests : List Request)
    (hid : isCancelled r.playback.tickets id = true) :
    id ∉ (r.run m requests).playback.due.map Prod.fst ∧ (r.run m requests).fired id = r.fired id := by
  induction requests generalizing r with
  | nil => exact ⟨not_mem_due_of_cancelled hid, rfl⟩
  | cons request requests ih =>
    obtain ⟨hdue, hfired⟩ := ih (h.handle m request) (isCancelled_handle m request hid)
    exact ⟨hdue, hfired.trans (fired_handle_of_cancelled m h request hid)⟩

theorem labelled_append (tickets : List Ticket) (tracks tracks' : List Track) :
    labelled tickets (tracks ++ tracks') = labelled tickets tracks ++ labelled tickets tracks' := by
  rw [labelled, List.filter_append, List.flatMap_append, labelled, labelled]

theorem labelled_issue (tickets : List Ticket) (tracks : List Track) :
    labelled (tickets ++ [({} : Ticket)]) tracks = labelled tickets tracks := by
  simp only [labelled, isCancelled_issue]

theorem isCancelled_cancel (p : Playback) {id j : ℕ} (hj : j < p.tickets.length) :
    isCancelled (p.cancel id).tickets j = (isCancelled p.tickets j || j = id) := by
  rw [isCancelled, isCancelled, cancel, List.getElem?_modify, List.getElem?_eq_getElem hj]
  by_cases hid : id = j
  · simp [hid]
  · simp [hid, Ne.symm hid]

theorem labelled_filter {tickets' : List Ticket}
    (h : ∀ t ∈ tracks, isCancelled tickets' t.id = (isCancelled tickets t.id || t.id = id)) :
    labelled tickets' tracks = (labelled tickets tracks).filter fun c ↦ c.1 ≠ id := by
  induction tracks with
  | nil => rfl
  | cons t tracks ih =>
    have hrest := ih fun u hu ↦ h u (List.mem_cons_of_mem t hu)
    have ht := h t List.mem_cons_self
    rcases Bool.eq_false_or_eq_true (isCancelled tickets t.id) with hcancelled | hlive
    · rw [labelled_cons_of_cancelled hcancelled, labelled_cons_of_cancelled (by rw [ht, hcancelled]; rfl),
        hrest]
    · rw [labelled_cons_of_live hlive, List.filter_append, List.filter_map, ← hrest]
      by_cases hid : t.id = id
      · rw [labelled_cons_of_cancelled (by rw [ht, hlive]; simpa using hid)]
        simp [Function.comp_def, hid]
      · rw [labelled_cons_of_live (by rw [ht, hlive]; simpa using hid)]
        simp [Function.comp_def, hid]

namespace Accounted

variable {r : Record} (h : Accounted r)
include h

theorem due_send {m : Modulator} {bytes : List UInt8} {samples : List Sample}
    (hm : m.modulate bytes = .ok samples) :
    (r.send m bytes).playback.due =
      r.playback.due ++ samples.map (r.playback.tickets.length, ·) := by
  simp only [Record.send, hm, enqueue, if_pos h.connected]
  have hlive : isCancelled r.playback.tickets r.playback.tickets.length = false := by
    rw [isCancelled, List.getElem?_eq_none le_rfl]
    rfl
  have hnew := labelled_cons_of_live (t := ⟨r.playback.tickets.length, samples⟩) hlive []
  rw [due, line, ← List.append_assoc, labelled_issue, labelled_append, hnew]
  exact congrArg _ (List.append_nil _)

theorem due_cancel (id : ℕ) :
    (r.cancel id).playback.due = r.playback.due.filter fun c ↦ c.1 ≠ id := by
  refine labelled_filter fun t ht ↦ isCancelled_cancel r.playback ?_
  by_contra hid
  exact (h.fresh t.id (not_lt.1 hid)).1 (List.mem_map_of_mem ht)

end Accounted

theorem due_collect (p : Playback) (id : ℕ) : (p.collect id).1.due = p.due := by
  simp only [due, labelled, isCancelled_collect, line_collect]

/-- The law of the output at a point of its history, whatever is asked next. -/
structure Lawful (m : Modulator) (r : Record) : Prop where
  played_write : ∀ n, (r.write n).played = r.played ++ fill n r.playback.pending
  due_write : ∀ n, (r.write n).playback.due = r.playback.due.drop n
  due_send : ∀ bytes samples, m.modulate bytes = .ok samples →
    (r.send m bytes).playback.due = r.playback.due ++ samples.map (r.playback.tickets.length, ·)
  due_cancel : ∀ id, (r.cancel id).playback.due = r.playback.due.filter fun c ↦ c.1 ≠ id
  due_poll : ∀ id, (r.poll id).playback.due = r.playback.due
  pending_eq : r.playback.pending = r.playback.due.map Prod.snd
  line_eq_nil : ∀ n, r.playback.due.length < n → (r.write n).playback.line = []
  write_write : ∀ n k, (r.write n).write k = r.write (n + k)
  fired_write : ∀ n id, id ∈ r.playback.due.map Prod.fst →
    (r.write n).fired id = r.fired id + if id ∈ (r.write n).playback.due.map Prod.fst then 0 else 1
  fired_write_of_not : ∀ n id,
    isCancelled r.playback.tickets id = true ∨ id ∉ r.playback.waiting →
      (r.write n).fired id = r.fired id
  /-- A packet waits, or its end was signalled once, or it was cancelled and its sender learns that. -/
  fate : ∀ id < r.playback.tickets.length,
    id ∈ r.playback.waiting ∧ r.fired id = 0 ∧ (r.playback.await id).2 = none ∨
    id ∉ r.playback.waiting ∧ r.fired id = 1 ∧
      (r.told.count (id, .played) = 0 → (r.playback.await id).2 = some (.ok ())) ∨
    id ∉ r.playback.waiting ∧ r.fired id = 0 ∧ isCancelled r.playback.tickets id = true ∧
      (r.playback.await id).2 = some (.error .sendCancelled)
  /-- Nothing of a cancelled packet is played or signalled, whatever follows. -/
  cancelled : ∀ id, isCancelled r.playback.tickets id = true → ∀ requests,
    id ∉ (r.run m requests).playback.due.map Prod.fst ∧ (r.run m requests).fired id = r.fired id

theorem Accounted.fate {r : Record} (h : Accounted r) (hid : id < r.playback.tickets.length) :
    id ∈ r.playback.waiting ∧ r.fired id = 0 ∧ (r.playback.await id).2 = none ∨
    id ∉ r.playback.waiting ∧ r.fired id = 1 ∧
      (r.told.count (id, .played) = 0 → (r.playback.await id).2 = some (.ok ())) ∨
    id ∉ r.playback.waiting ∧ r.fired id = 0 ∧ isCancelled r.playback.tickets id = true ∧
      (r.playback.await id).2 = some (.error .sendCancelled) := by
  have hget := List.getElem?_eq_getElem hid
  have hstands := h.stands id _ hget
  rw [await, isCancelled, Record.fired, isPlayed, hget]
  generalize r.playback.tickets[id] = t at hstands
  generalize r.told.count (id, .played) = count at hstands
  cases hstands with
  | waiting hin => exact .inl ⟨hin, rfl, rfl⟩
  | played hout => exact .inr (.inl ⟨hout, rfl, fun _ ↦ rfl⟩)
  | told hout => exact .inr (.inl ⟨hout, rfl, fun h ↦ absurd h Nat.one_ne_zero⟩)
  | skipped hout => exact .inr (.inr ⟨hout, rfl, rfl, rfl⟩)

theorem Record.write_write (r : Record) (n k : ℕ) : (r.write n).write k = r.write (n + k) := by
  simp only [write, write_add, List.append_assoc]

theorem Accounted.lawful (m : Modulator) {r : Record} (h : Accounted r) : Lawful m r where
  played_write n := by rw [Record.write, (exists_advances r.playback n).2]
  due_write n := by
    obtain ⟨⟨left, hp⟩, -⟩ := exists_advances r.playback n
    exact hp.due_eq
  due_send _ _ hm := h.due_send hm
  due_cancel id := h.due_cancel id
  due_poll id := due_collect r.playback id
  pending_eq := pending_eq_map_due r.playback
  line_eq_nil n := by
    obtain ⟨⟨left, hp⟩, -⟩ := exists_advances r.playback n
    exact hp.line_eq_nil
  write_write := r.write_write
  fired_write n id hdue := by
    obtain ⟨⟨left, hp⟩, -⟩ := exists_advances r.playback n
    have hleft := h.mem_left_iff hp hdue
    have hlive : isCancelled r.playback.tickets id = false :=
      Bool.eq_false_iff.2 fun hcancelled ↦ not_mem_due_of_cancelled hcancelled hdue
    rw [h.fired_write hp]
    by_cases hmem : id ∈ (r.write n).playback.due.map Prod.fst
    · rw [if_pos hmem, if_neg fun hboth ↦ hleft.1 hboth.1 hmem]
    · rw [if_neg hmem, if_pos ⟨hleft.2 hmem, hlive⟩]
  fired_write_of_not n id hnot := by
    obtain ⟨⟨left, hp⟩, -⟩ := exists_advances r.playback n
    rw [h.fired_write hp, if_neg, Nat.add_zero]
    rintro ⟨hleft, hlive⟩
    rcases hnot with hcancelled | hout
    · rw [hcancelled] at hlive
      cases hlive
    · refine hout ?_
      rw [waiting, hp.ids_eq]
      exact List.mem_append_left _ hleft
  fate id hid := h.fate hid
  cancelled id hid requests := run_of_cancelled m h requests hid

/-- Whatever is sent, cancelled, played and asked for in whatever order, the output obeys its law. -/
theorem lawful_run (m : Modulator) (requests : List Request) : Lawful m (Record.run m {} requests) :=
  (accounted_empty.run m requests).lawful m

end Playback

end SoundLink
