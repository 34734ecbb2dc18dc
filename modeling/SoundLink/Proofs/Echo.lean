import SoundLink.Echo
import SoundLink.Proofs.Playback
import SoundLink.Proofs.Validity
import SoundLink.Proofs.WindowedPower

namespace SoundLink

open Demodulator

theorem Backlog.push_of_empty {α : Type} {b : Backlog α} (hempty : b.blocks.items = [])
    (hroom : 0 < b.blocks.capacity) (a : α) :
    (b.push a).drain = ({ b with blocks := .empty b.blocks.capacity }, [a]) := by
  obtain ⟨q, hq, hitems, hcapacity⟩ := Queue.push_of_lt (q := b.blocks) (a := a) (by rwa [hempty])
  rw [hempty, List.nil_append] at hitems
  simp [push, drain, hq, Queue.drain, hitems, hcapacity]

namespace Modem

variable {c : Config.Phy} {m : Modem}

structure Steady (c : Config.Phy) (m : Modem) : Prop where
  modulator_eq : m.modulator = c.modulator
  demodulator_eq : m.demodulator = c.demodulator
  span_eq : m.monitor.span = c.powerMonitor.window.toNat
  blocks_eq : m.backlog.blocks.items = []
  room : 0 < m.backlog.blocks.capacity
  dropped_eq : m.backlog.dropped = 0
  capacity_eq : m.packets.capacity = c.packetBuffer.toNat
  errors_eq : m.errors.pending = none
  closed_eq : m.closed = false

theorem steady_ofConfig (hvalid : c.Valid) : Steady c (ofConfig c) :=
  ⟨rfl, rfl, rfl, rfl, hvalid.inputBuffer_pos, rfl, rfl, rfl, rfl⟩

theorem Steady.playing (h : Steady c m) (playback : Playback) : Steady c { m with playback } :=
  { h with }

theorem deliver_packets (m : Modem) (bs : List (List UInt8))
    (h : m.packets.items.length + bs.length ≤ m.packets.capacity) :
    ∃ q : Queue (List UInt8), (bs.map Event.packet).foldl deliver m = { m with packets := q } ∧
      q.items = m.packets.items ++ bs ∧ q.capacity = m.packets.capacity := by
  induction bs generalizing m with
  | nil => exact ⟨m.packets, rfl, (List.append_nil _).symm, rfl⟩
  | cons b bs ih =>
    rw [List.length_cons] at h
    obtain ⟨q', hpush, hitems', hcapacity'⟩ := Queue.push_of_lt (q := m.packets) (a := b) (by omega)
    have hdeliver : m.deliver (.packet b) = { m with packets := q' } := by rw [deliver, hpush]
    obtain ⟨q, hq, hitems, hcapacity⟩ := ih { m with packets := q' } (by
      dsimp only
      rw [hitems', hcapacity', List.length_append, List.length_singleton]
      omega)
    refine ⟨q, ?_, ?_, hcapacity.trans hcapacity'⟩
    · rw [List.map_cons, List.foldl_cons, hdeliver, hq]
    · rw [hitems, hitems', List.append_assoc, List.singleton_append]

theorem Steady.tick (h : Steady c m) (hvalid : c.Valid) {block : List Sample} {n : ℕ}
    {bs : List (List UInt8)}
    (hevents : events (c.demodulator.run m.state block).2 = bs.map .packet)
    (hroom : m.packets.items.length + bs.length ≤ c.packetBuffer.toNat) :
    ∃ m', m.tick block n = .ok (m', (m.playback.write n).2) ∧ Steady c m' ∧
      m'.playback = (m.playback.write n).1 ∧ m'.state = (c.demodulator.run m.state block).1 ∧
      m'.packets.items = m.packets.items ++ bs := by
  obtain ⟨monitor, hmonitor, hspan⟩ := PowerMonitor.exists_update (m := m.monitor)
    (Nat.not_dvd_of_pos_of_lt (by rw [h.span_eq]; exact hvalid.window.1)
      (by rw [h.span_eq]; exact hvalid.window.2.trans_lt (by decide))) block
  obtain ⟨m₁, hm₁⟩ : ∃ m₁ : Modem, m₁ = { m with
      monitor
      playback := (m.playback.write n).1
      backlog := { m.backlog with blocks := .empty m.backlog.blocks.capacity }
      state := (c.demodulator.run m.state block).1 } := ⟨_, rfl⟩
  have htick : m.tick block n =
      .ok ((bs.map Event.packet).foldl deliver m₁, (m.playback.write n).2) := by
    have hdrain := Backlog.push_of_empty h.blocks_eq h.room block
    rw [Modem.tick, hmonitor, ← hevents, hm₁]
    simp only [bind, Except.bind, decode, hdrain, List.foldl_cons, List.foldl_nil, h.demodulator_eq]
    rfl
  obtain ⟨q, hq, hitems, hcapacity⟩ := deliver_packets m₁ bs (by
    rw [hm₁]
    rwa [h.capacity_eq])
  refine ⟨{ m₁ with packets := q }, by rw [htick, hq], ?_, ?_, ?_, ?_⟩
  · rw [hm₁] at hcapacity ⊢
    exact ⟨h.modulator_eq, h.demodulator_eq, hspan.trans h.span_eq, rfl, h.room, h.dropped_eq,
      hcapacity.trans h.capacity_eq, h.errors_eq, h.closed_eq⟩
  · rw [hm₁]
  · rw [hm₁]
  · rw [hm₁] at hitems
    exact hitems

theorem Steady.send (h : Steady c m) (hvalid : c.Valid) {done : ℕ} (hplayback : m.playback.Orderly done)
    {bytes : List UInt8} (hne : bytes ≠ []) (hmax : bytes.length ≤ maxFrames * c.bytesPerFrame.toNat) :
    ∃ p' : Playback, m.send bytes = .ok ({ m with playback := p' }, m.playback.tickets.length) ∧
      p'.Orderly done ∧ p'.pending = m.playback.pending ++ c.modulator.sound bytes ∧
      p'.tickets = m.playback.tickets ++ [({} : Ticket)] := by
  have hmodulate : c.modulator.modulate bytes = .ok (c.modulator.sound bytes) :=
    Modulator.modulate_eq hvalid.bytesPerFrame_pos hmax
  have hsound : c.modulator.sound bytes ≠ [] := by
    obtain ⟨after, hafter⟩ := Modulator.sound_eq_append (m := c.modulator)
      hvalid.bytesPerFrame_pos hne
    have hlength : 0 < c.modulator.preamble.length := by
      have hramp := hvalid.ramp_pos
      rw [Config.Phy.modulator, Config.Phy.preambleSamples, SoundLink.Preamble.length_samples,
        SoundLink.Preamble.length]
      positivity
    rw [hafter]
    exact List.append_ne_nil_of_left_ne_nil (List.ne_nil_of_length_pos hlength) after
  obtain ⟨p', henqueue, horderly, hpending, htickets⟩ := hplayback.enqueue hsound
  refine ⟨p', ?_, horderly, hpending, htickets⟩
  rw [Modem.send, h.modulator_eq, hmodulate]
  simp only [henqueue, bind, Except.bind, Except.mapError]
  rfl

end Modem

/-- Packets as they are played, with the silence before each. -/
def Modulator.stream (m : Modulator) (line : List (ℕ × List UInt8)) : List Sample :=
  line.flatMap fun (gap, bytes) ↦ List.replicate gap 0 ++ m.sound bytes

theorem Modulator.stream_snoc (m : Modulator) (line : List (ℕ × List UInt8)) (gap : ℕ)
    (bytes : List UInt8) :
    m.stream (line ++ [(gap, bytes)]) = m.stream line ++ (List.replicate gap 0 ++ m.sound bytes) := by
  simp [stream]

namespace Config.Phy.Clean

variable {c : Config.Phy} (hclean : c.Clean) {line : List (ℕ × List UInt8)} {tail : ℕ}
variable (hline : ∀ q ∈ line, q.2 ≠ [] ∧ q.2.length ≤ maxFrames * c.bytesPerFrame.toNat)
variable {heard block rest : List Sample} {old : List (List UInt8)}
include hclean hline

/-- Whatever has been heard of packets, what was taken from it is the first of them. -/
theorem events_isPrefix (hheard : heard ++ rest = c.modulator.stream line ++ List.replicate tail 0) :
    events (c.demodulator.run .initial heard).2 <+: (line.map Prod.snd).map .packet := by
  have hlong : heard ++ (rest ++ List.replicate (Preamble.length c.preamble.ramp.toNat) 0) =
      c.modulator.stream line ++
        List.replicate (tail + Preamble.length c.preamble.ramp.toNat) 0 := by
    rw [← List.append_assoc, hheard, List.append_assoc, ← List.replicate_add]
  obtain ⟨τ, -, hall⟩ := hclean.cleanLink.carries_line (quiet_of_start (σ := .initial) rfl) hline
    (Nat.le_add_left (Preamble.length c.preamble.ramp.toNat) tail)
  change c.demodulator.Carries .initial (c.modulator.stream line ++ _) _ τ at hall
  rw [← hlong] at hall
  obtain ⟨υ, gs, fs, hsplit, ⟨-, hgs⟩, -⟩ := carries_append_iff.1 hall
  rw [List.map_map]
  refine ⟨fs, ?_⟩
  rw [hgs, ← hsplit]
  rfl

theorem exists_packets (hheard : heard ++ block ++ rest =
      c.modulator.stream line ++ List.replicate tail 0)
    (hold : events (c.demodulator.run .initial heard).2 = old.map .packet) :
    ∃ new, events (c.demodulator.run (c.demodulator.run .initial heard).1 block).2 =
        new.map .packet ∧ old ++ new <+: line.map Prod.snd := by
  have hfirst := hclean.events_isPrefix hline hheard
  have hboth : c.demodulator.Carries .initial (heard ++ block) _ _ :=
    Carries.append ⟨rfl, rfl⟩ ⟨rfl, rfl⟩
  rw [hboth.2, hold, List.prefix_iff_eq_take, ← List.map_take] at hfirst
  obtain ⟨front, new, hsplit, hfront, hnew⟩ := List.map_eq_append_iff.1 hfirst.symm
  obtain rfl : front = old := List.map_injective_iff.2 (fun _ _ h ↦ Event.packet.inj h) hfront
  exact ⟨new, hnew.symm, hsplit ▸ List.take_prefix _ _⟩

end Config.Phy.Clean

namespace Echo

/-- What has become of the sound so far: the samples that were heard, the block that is heard next,
the buffer that is played into, how much silence follows the last packet, and how many packets are
played to their end. -/
structure Course where
  heard : List Sample
  block : List Sample
  buffer : List Sample
  tail : ℕ
  done : ℕ

/-- What holds after packets were sent and a number of blocks was heard: what was heard, what is
heard next and what is still to be played are the packets that were sent, in their order. -/
structure Stands (c : Config.Phy) (size : ℕ) (line : List (ℕ × List UInt8)) (ticks : ℕ) (x : Course)
    (e : Echo) : Prop where
  steady : e.modem.Steady c
  device_eq : e.device = ⟨size, some (x.block, x.buffer)⟩
  length_block : x.block.length = size
  length_buffer : x.buffer.length = size
  length_heard : x.heard.length = size * ticks
  stream_eq : x.heard ++ x.block ++ e.modem.playback.pending =
    c.modulator.stream line ++ List.replicate x.tail 0
  tail_eq : e.modem.playback.pending ≠ [] → x.tail = 0
  state_eq : e.modem.state = (c.demodulator.run .initial x.heard).1
  events_eq : events (c.demodulator.run .initial x.heard).2 =
    (e.received ++ e.modem.packets.items).map .packet
  orderly : e.modem.playback.Orderly x.done
  signalled : e.modem.playback.Signalled e.told x.done
  handles_eq : e.handles = List.range line.length
  length_tickets : e.modem.playback.tickets.length = line.length

variable {c : Config.Phy} {size ticks : ℕ} {line : List (ℕ × List UInt8)} {x : Course} {e : Echo}

theorem start_eq_ok (hstart : start c size = .ok e) :
    c.check = .ok () ∧
      e = ⟨.ofConfig c, ⟨max 1 size, some (Device.silence (max 1 size), Device.silence (max 1 size))⟩,
        [], [], []⟩ := by
  obtain ⟨modem, hmodem, hrest⟩ := Outcome.bind_eq_ok.1 hstart
  obtain ⟨hcheck, hmodem⟩ := Outcome.bind_unit_eq_ok.1 hmodem
  obtain ⟨-, hmodem⟩ := Outcome.bind_unit_eq_ok.1 hmodem
  obtain ⟨-, hmodem⟩ := Outcome.bind_unit_eq_ok.1 hmodem
  cases hmodem
  cases hrest
  refine ⟨?_, rfl⟩
  cases hvalid : c.check with
  | ok _ => rfl
  | error failure =>
    rw [hvalid] at hcheck
    cases hcheck

theorem stands_start (hstart : start c size = .ok e) :
    ∃ x, Stands c (max 1 size) [] 0 x e := by
  obtain ⟨hcheck, rfl⟩ := start_eq_ok hstart
  have hvalid := Config.Phy.check_eq_ok_iff.1 hcheck
  exact ⟨⟨[], Device.silence (max 1 size), Device.silence (max 1 size), max 1 size, 0⟩,
    Modem.steady_ofConfig hvalid, rfl, List.length_replicate, List.length_replicate, rfl,
    List.append_nil _, fun h ↦ absurd rfl h, rfl, rfl, Playback.orderly_empty,
    Playback.signalled_empty, rfl, rfl⟩

theorem Stands.send (h : Stands c size line ticks x e) (hvalid : c.Valid) {bytes : List UInt8}
    (hne : bytes ≠ []) (hmax : bytes.length ≤ maxFrames * c.bytesPerFrame.toNat) :
    ∃ e' gap x', e.act (.send bytes) = .ok e' ∧
      Stands c size (line ++ [(gap, bytes)]) ticks x' e' := by
  obtain ⟨p', hsend, horderly, hpending, htickets⟩ := h.steady.send hvalid h.orderly hne hmax
  refine ⟨{ e with
      modem := { e.modem with playback := p' }
      handles := e.handles ++ [e.modem.playback.tickets.length] },
    x.tail, { x with tail := 0 }, ?_, ?_⟩
  · rw [act, hsend]
    rfl
  · refine { h with
      steady := h.steady.playing p'
      stream_eq := ?_
      tail_eq := fun _ ↦ rfl
      orderly := horderly
      signalled := h.signalled.enqueue htickets
      handles_eq := ?_
      length_tickets := ?_ }
    · dsimp only
      rw [hpending, ← List.append_assoc, h.stream_eq, Modulator.stream_snoc, List.append_assoc,
        List.replicate_zero, List.append_nil]
    · dsimp only
      rw [h.handles_eq, h.length_tickets, List.length_append, List.length_singleton, List.range_succ]
    · dsimp only
      rw [htickets, List.length_append, List.length_append, h.length_tickets]
      rfl

theorem Stands.tick (h : Stands c size line ticks x e) (hvalid : c.Valid) (hclean : c.Clean)
    (hsize : 0 < size)
    (hline : ∀ q ∈ line, q.2 ≠ [] ∧ q.2.length ≤ maxFrames * c.bytesPerFrame.toNat)
    (hcount : line.length ≤ c.packetBuffer.toNat) :
    ∃ e' x', e.act .tick = .ok e' ∧ Stands c size line (ticks + 1) x' e' := by
  have hrun : c.demodulator.Carries .initial (x.heard ++ x.block) _ _ :=
    Carries.append ⟨rfl, rfl⟩ ⟨rfl, rfl⟩
  obtain ⟨new, hnew, hfirst⟩ := hclean.exists_packets hline h.stream_eq h.events_eq
  rw [← h.state_eq] at hnew hrun
  have hroom : e.modem.packets.items.length + new.length ≤ c.packetBuffer.toNat := by
    have hle := hfirst.length_le
    rw [List.length_append, List.length_append, List.length_map] at hle
    omega
  obtain ⟨m', htick, hsteady, hplayback, hstate, hitems⟩ := h.steady.tick (n := size) hvalid hnew hroom
  obtain ⟨k, z, horderly, hlength, hwritten, hsilence, htickets⟩ := h.orderly.write hsize
  rw [← hplayback] at horderly hwritten hsilence htickets
  have houtput : Device.overlay (e.modem.playback.write size).2 x.block x.buffer =
      (e.modem.playback.write size).2 := by
    rw [Device.overlay, List.take_of_length_le (by rw [hlength, h.length_buffer]),
      List.drop_of_length_le (by rw [hlength, h.length_buffer]), List.append_nil]
  have hfinished : m'.playback.tickets.length = e.modem.playback.tickets.length := by
    rw [htickets, Playback.length_finish]
  have hdone := horderly.length_tickets
  refine ⟨{ e with modem := m', device := ⟨size, some ((e.modem.playback.write size).2, x.block)⟩ },
    ⟨x.heard ++ x.block, (e.modem.playback.write size).2, x.block, x.tail + z, x.done + k⟩, ?_, ?_⟩
  · rw [act, h.device_eq]
    simp only [Loopback.heard, Option.map_some, htick, Except.mapError, bind, Except.bind,
      Loopback.tick, houtput]
    rfl
  · exact {
      steady := hsteady
      device_eq := rfl
      length_block := hlength
      length_buffer := h.length_block
      length_heard := by
        rw [List.length_append, h.length_heard, h.length_block, Nat.mul_succ]
      stream_eq := by
        dsimp only
        rw [List.append_assoc, hwritten, ← List.append_assoc, h.stream_eq, List.append_assoc,
          ← List.replicate_add]
      tail_eq := fun hne ↦ by
        have hzero := hsilence hne
        rw [hzero, List.replicate_zero, List.append_nil] at hwritten
        have hbefore : e.modem.playback.pending ≠ [] := by
          rw [← hwritten]
          exact List.append_ne_nil_of_right_ne_nil _ hne
        dsimp only
        rw [h.tail_eq hbefore, hzero]
      state_eq := hstate.trans hrun.1.symm
      events_eq := by
        dsimp only
        rw [hrun.2, hitems, h.events_eq, hnew, ← List.map_append, List.append_assoc]
      orderly := horderly
      signalled := h.signalled.write htickets (by omega)
      handles_eq := h.handles_eq
      length_tickets := hfinished.trans h.length_tickets }

theorem Stands.poll (h : Stands c size line ticks x e) (handle : ℕ) :
    ∃ e', e.act (.poll handle) = .ok e' ∧ Stands c size line ticks x e' := by
  obtain ⟨horderly, hpending⟩ := h.orderly.collect handle
  refine ⟨{ e with
      modem := { e.modem with playback := (e.modem.playback.collect handle).1 }
      told := e.told ++ [(handle, (e.modem.playback.collect handle).2)] }, rfl, { h with
    steady := h.steady.playing _
    stream_eq := ?_
    tail_eq := ?_
    orderly := horderly
    signalled := h.signalled.collect handle
    length_tickets := (Playback.length_collect _ _).trans h.length_tickets }⟩
  · dsimp only
    rw [hpending]
    exact h.stream_eq
  · dsimp only
    rw [hpending]
    exact h.tail_eq

theorem Stands.receive (h : Stands c size line ticks x e) :
    ∃ e', e.act .receive = .ok e' ∧ Stands c size line ticks x e' ∧
      e'.modem.packets.items = e.modem.packets.items.tail := by
  have htail := e.modem.packets.items_tryReceive
  rcases e.modem.packets.tryReceive_cases with ⟨hnone, -⟩ | ⟨q, packet, hsome, hitems, hcapacity⟩
  · have hreceive : e.modem.receive = (e.modem, .ok none) := by
      rw [Modem.receive, hnone]
      simp only [h.steady.closed_eq]
      rfl
    rw [hnone] at htail
    refine ⟨{ e with received := e.received ++ [] }, ?_, ?_, htail⟩
    · rw [act, hreceive]
      rfl
    · rwa [List.append_nil]
  · have hreceive : e.modem.receive = ({ e.modem with packets := q }, .ok (some packet)) := by
      rw [Modem.receive, hsome]
    rw [hsome] at htail
    refine ⟨{ e with
        modem := { e.modem with packets := q }
        received := e.received ++ [packet] }, ?_, { h with
      steady := { h.steady with capacity_eq := hcapacity.trans h.steady.capacity_eq }
      events_eq := ?_ }, htail⟩
    · rw [act, hreceive]
      rfl
    · dsimp only
      rw [h.events_eq, hitems, List.append_assoc, List.singleton_append]

theorem run_cons (e : Echo) (a : Act) (acts : List Act) :
    e.run (a :: acts) = e.act a >>= fun e' ↦ e'.run acts := List.foldlM_cons

theorem run_append (e : Echo) (acts more : List Act) :
    e.run (acts ++ more) = e.run acts >>= fun e' ↦ e'.run more := List.foldlM_append

def Fits (c : Config.Phy) (packets : List (List UInt8)) : Prop :=
  ∀ bytes ∈ packets, bytes ≠ [] ∧ bytes.length ≤ maxFrames * c.bytesPerFrame.toNat

theorem Stands.act (h : Stands c size line ticks x e) (hvalid : c.Valid) (hclean : c.Clean)
    (hsize : 0 < size) (hfits : Fits c (line.map Prod.snd)) (hcount : line.length ≤ c.packetBuffer.toNat)
    (a : Act) (ha : Fits c (Act.sent [a])) :
    ∃ e' added x', e.act a = .ok e' ∧ added.map Prod.snd = Act.sent [a] ∧
      Stands c size (line ++ added) (ticks + [a].count .tick) x' e' := by
  cases a with
  | send bytes =>
    obtain ⟨hne, hmax⟩ := ha bytes (List.mem_singleton_self bytes)
    obtain ⟨e', gap, x', he', hstands⟩ := h.send hvalid hne hmax
    exact ⟨e', [(gap, bytes)], x', he', rfl, hstands⟩
  | tick =>
    obtain ⟨e', x', he', hstands⟩ := h.tick hvalid hclean hsize
      (fun q hq ↦ hfits q.2 (List.mem_map_of_mem hq)) hcount
    refine ⟨e', [], x', he', rfl, ?_⟩
    rwa [List.append_nil]
  | poll handle =>
    obtain ⟨e', he', hstands⟩ := h.poll handle
    refine ⟨e', [], x, he', rfl, ?_⟩
    rwa [List.append_nil]
  | receive =>
    obtain ⟨e', he', hstands, -⟩ := h.receive
    refine ⟨e', [], x, he', rfl, ?_⟩
    rwa [List.append_nil]

theorem Stands.run (h : Stands c size line ticks x e) (hvalid : c.Valid) (hclean : c.Clean)
    (hsize : 0 < size) (acts : List Act) (hfits : Fits c (line.map Prod.snd ++ Act.sent acts))
    (hcount : line.length + (Act.sent acts).length ≤ c.packetBuffer.toNat) :
    ∃ e' added x', e.run acts = .ok e' ∧ added.map Prod.snd = Act.sent acts ∧
      Stands c size (line ++ added) (ticks + acts.count .tick) x' e' := by
  induction acts generalizing line ticks x e with
  | nil =>
    refine ⟨e, [], x, rfl, rfl, ?_⟩
    rwa [List.append_nil]
  | cons a acts ih =>
    have hsent : Act.sent (a :: acts) = Act.sent [a] ++ Act.sent acts :=
      List.filterMap_append (l := [a])
    rw [hsent] at hfits hcount
    rw [List.length_append] at hcount
    obtain ⟨e₁, added, x₁, he₁, hadded, hstands⟩ := h.act hvalid hclean hsize
      (fun bytes hbytes ↦ hfits bytes (List.mem_append_left _ hbytes)) (by omega) a
      (fun bytes hbytes ↦ hfits bytes (List.mem_append_right _ (List.mem_append_left _ hbytes)))
    have hlength := congrArg List.length hadded
    rw [List.length_map] at hlength
    obtain ⟨e₂, more, x₂, he₂, hmore, hstands'⟩ := ih hstands
      (by rwa [List.map_append, hadded, List.append_assoc])
      (by rw [List.length_append]; omega)
    refine ⟨e₂, added ++ more, x₂, ?_, ?_, ?_⟩
    · rw [run_cons, he₁]
      exact he₂
    · rw [List.map_append, hadded, hmore, hsent]
    · rw [← List.append_assoc, ← List.singleton_append, List.count_append, ← Nat.add_assoc]
      exact hstands'

theorem Stands.run_receive (h : Stands c size line ticks x e) {n : ℕ}
    (hn : e.modem.packets.items.length ≤ n) :
    ∃ e', e.run (List.replicate n .receive) = .ok e' ∧ Stands c size line ticks x e' ∧
      e'.modem.packets.items = [] := by
  induction n generalizing e with
  | zero => exact ⟨e, rfl, h, List.length_eq_zero_iff.1 (Nat.le_zero.1 hn)⟩
  | succ n ih =>
    obtain ⟨e₁, he₁, hstands, htail⟩ := h.receive
    obtain ⟨e₂, he₂, hresult⟩ := ih hstands (by rw [htail, List.length_tail]; omega)
    refine ⟨e₂, ?_, hresult⟩
    rw [List.replicate_succ, run_cons, he₁]
    exact he₂

/-- Once the device has run for as long as all packets last and a preamble more, nothing waits to be
played and everything has been heard. -/
theorem Stands.finished (h : Stands c size line ticks x e) (hclean : c.Clean)
    (hfits : Fits c (line.map Prod.snd))
    (hlong : (c.modulator.stream line).length + Preamble.length c.preamble.ramp.toNat ≤ size * ticks) :
    e.received ++ e.modem.packets.items = line.map Prod.snd ∧
      ∀ handle < line.length, e.fired handle = 1 := by
  have hlengths := congrArg List.length h.stream_eq
  rw [List.length_append, List.length_append, List.length_append, List.length_replicate,
    h.length_heard, h.length_block] at hlengths
  have hpos := hclean.cleanLink.le_length
  have hpending : e.modem.playback.pending = [] := by
    by_contra hne
    have hzero := h.tail_eq hne
    omega
  rw [hpending, List.length_nil] at hlengths
  constructor
  · -- the block that is heard next is silent, and more silence than a preamble comes before it
    have hheard : x.heard = c.modulator.stream line ++ List.replicate (x.tail - size) 0 := by
      have hsplit : x.heard ++ x.block = (c.modulator.stream line ++ List.replicate (x.tail - size) 0) ++
          List.replicate size 0 := by
        have hstream := h.stream_eq
        rw [hpending, List.append_nil] at hstream
        rw [hstream, List.append_assoc, ← List.replicate_add, Nat.sub_add_cancel (by omega)]
      exact (List.append_inj' hsplit (by rw [h.length_block, List.length_replicate])).1
    obtain ⟨τ, -, -, hevents⟩ := hclean.cleanLink.carries_line (quiet_of_start (σ := .initial) rfl)
      (fun q hq ↦ hfits q.2 (List.mem_map_of_mem hq))
      (show Preamble.length c.preamble.ramp.toNat ≤ x.tail - size by omega)
    change events (c.demodulator.run .initial (c.modulator.stream line ++ _)).2 = _ at hevents
    have hall := h.events_eq
    rw [hheard, hevents] at hall
    refine (List.map_injective_iff.2 (fun _ _ h ↦ Event.packet.inj h) ?_)
    rw [← hall, List.map_map]
    rfl
  · intro handle hhandle
    have hdone := h.orderly.length_tickets
    rw [h.orderly.line_eq_nil hpending, List.length_nil, h.length_tickets] at hdone
    exact (h.signalled handle).trans (if_pos (by omega))

end Echo

open Echo

/-- A modem whose device plays into its microphone takes all packets that are sent, whenever they are
sent and whatever else is asked of it. After finitely many blocks the end of each has been signalled
once, they are received in the order in which they were sent, and neither an error nor the loss of a
block has been noted. -/
theorem exists_run_echo (c : Config.Phy) (size : ℕ) {e : Echo} (hstart : Echo.start c size = .ok e)
    (hramp : 3 ≤ c.preamble.ramp.toNat) (hramp' : c.preamble.ramp.toNat ≤ 127)
    (hcarrier : 2 ^ 24 ≤ c.carrier.peak.toInt)
    (hpreamble : c.carrier.peak.toInt ≤ c.preamble.peak.toInt) (hinterval : c.frameInterval ≠ 0)
    (hthreshold : (Fixed.ofBinary c.preamble.threshold).units <
      peakUnits c.preamble.ramp.toNat c.preamble.peak)
    (acts : List Act)
    (hsent : ∀ bytes ∈ Act.sent acts, bytes ≠ [] ∧ bytes.length ≤ maxFrames * c.bytesPerFrame.toNat)
    (hcount : (Act.sent acts).length ≤ c.packetBuffer.toNat) :
    ∃ N, ∀ more, Act.sent more = [] → N ≤ more.count .tick →
      ∃ e', e.run (acts ++ more ++ List.replicate (Act.sent acts).length .receive) = .ok e' ∧
        e'.handles = List.range (Act.sent acts).length ∧ (∀ handle ∈ e'.handles, e'.fired handle = 1) ∧
        e'.received = Act.sent acts ∧ e'.modem.errors.pending = none ∧
        e'.modem.backlog.dropped = 0 := by
  have hvalid := Config.Phy.check_eq_ok_iff.1 (start_eq_ok hstart).1
  have hclean := hvalid.clean hramp hramp' hcarrier hpreamble hinterval hthreshold
  have hsize : 0 < max 1 size := Nat.lt_of_lt_of_le Nat.one_pos (le_max_left 1 size)
  obtain ⟨x, hx⟩ := stands_start hstart
  obtain ⟨e₁, line, x₁, he₁, hline, h₁⟩ := hx.run hvalid hclean hsize acts hsent
    (by rw [List.length_nil]; omega)
  rw [List.nil_append] at h₁
  have hfits : Fits c (line.map Prod.snd) := by rwa [hline]
  have hlength : line.length = (Act.sent acts).length := by rw [← hline, List.length_map]
  refine ⟨(c.modulator.stream line).length + Preamble.length c.preamble.ramp.toNat,
    fun more hmore hticks ↦ ?_⟩
  obtain ⟨e₂, added, x₂, he₂, hadded, h₂⟩ := h₁.run hvalid hclean hsize more
    (by rwa [hmore, List.append_nil]) (by rw [hmore, List.length_nil]; omega)
  obtain rfl : added = [] := List.map_eq_nil_iff.1 (hadded.trans hmore)
  rw [List.append_nil] at h₂
  have hlong : (c.modulator.stream line).length + Preamble.length c.preamble.ramp.toNat ≤
      max 1 size * (0 + acts.count .tick + more.count .tick) := by
    have hall : more.count .tick ≤ max 1 size * (0 + acts.count .tick + more.count .tick) :=
      (Nat.le_add_left _ _).trans (Nat.le_mul_of_pos_left _ hsize)
    exact hticks.trans hall
  obtain ⟨hreceived, -⟩ := h₂.finished hclean hfits hlong
  obtain ⟨e₃, he₃, h₃, hempty⟩ := h₂.run_receive (n := (Act.sent acts).length) (by
    have hall := congrArg List.length hreceived
    rw [List.length_append, List.length_map] at hall
    omega)
  obtain ⟨hreceived', hfired⟩ := h₃.finished hclean hfits hlong
  rw [hempty, List.append_nil, hline] at hreceived'
  refine ⟨e₃, ?_, ?_, ?_, hreceived', h₃.steady.errors_eq, h₃.steady.dropped_eq⟩
  · rw [run_append, run_append, he₁]
    simp only [bind, Except.bind, he₂, he₃]
  · rw [h₃.handles_eq, hlength]
  · intro handle hhandle
    rw [h₃.handles_eq] at hhandle
    exact hfired handle (List.mem_range.1 hhandle)

theorem exists_run_echo_default :
    ∃ e, Echo.start {} 128 = .ok e ∧ ∃ N, ∀ k ≥ N, ∃ e',
      e.run ([.tick, .send [1, 2, 3], .tick, .send [255], .poll 0] ++ List.replicate k .tick ++
        List.replicate 2 .receive) = .ok e' ∧
        e'.handles = [0, 1] ∧ (∀ handle ∈ e'.handles, e'.fired handle = 1) ∧
        e'.received = [[1, 2, 3], [255]] ∧ e'.modem.errors.pending = none ∧
        e'.modem.backlog.dropped = 0 := by
  have hcheck : ({} : Config.Phy).check = .ok () := by decide +kernel
  have hstart : Echo.start {} 128 = .ok ⟨.ofConfig {}, ⟨128, some (Device.silence 128,
      Device.silence 128)⟩, [], [], []⟩ := by
    rw [Echo.start, Modem.start, hcheck]
    rfl
  obtain ⟨N, hN⟩ := exists_run_echo {} 128 hstart (by decide) (by decide) (by decide +kernel)
    (by decide +kernel) (by decide) (by decide +kernel)
    [.tick, .send [1, 2, 3], .tick, .send [255], .poll 0] (by decide) (by decide)
  refine ⟨_, hstart, N, fun k hk ↦ hN (List.replicate k .tick) ?_ ?_⟩
  · simp [Act.sent, Act.sent?]
  · rwa [List.count_replicate_self]

end SoundLink
