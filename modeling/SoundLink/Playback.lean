import SoundLink.Error
import SoundLink.Sample

namespace SoundLink

structure Track where
  id : Nat
  samples : List Sample
  deriving DecidableEq

inductive Fate
  | pending
  /-- Played to its end, which the sender has not been told yet. -/
  | played
  | gone
  deriving DecidableEq, Repr

structure Ticket where
  fate : Fate := .pending
  cancelled : Bool := false
  deriving DecidableEq

namespace Ticket

def collect (t : Ticket) : Ticket × Fate :=
  (if t.fate = .played then { t with fate := .gone } else t, t.fate)

def awaited (t : Ticket) : Option (Except PhyError Unit) :=
  match t.fate with
  | .pending => none
  | .played => some (.ok ())
  | .gone => some (.error (if t.cancelled then .sendCancelled else .closed))

end Ticket

structure Playback where
  current : Option Track := none
  queue : List Track := []
  tickets : List Ticket := []
  connected : Bool := true
  deriving DecidableEq

namespace Playback

def isCancelled (tickets : List Ticket) (id : Nat) : Bool := (tickets[id]?).any Ticket.cancelled

def pending (p : Playback) : List Sample :=
  ((p.current.toList ++ p.queue).filter fun t ↦ !isCancelled p.tickets t.id).flatMap Track.samples

def idle (p : Playback) : Bool := p.current.isNone && p.queue.isEmpty

def enqueue (p : Playback) (samples : List Sample) : Except PhyError (Playback × Nat) :=
  if p.connected then
    let id := p.tickets.length
    .ok ({ p with queue := p.queue ++ [⟨id, samples⟩], tickets := p.tickets ++ [{}] }, id)
  else .error .closed

def setFate (fate : Fate) (tickets : List Ticket) (id : Nat) : List Ticket :=
  tickets.modify id fun t ↦ { t with fate }

structure Draw where
  samples : List Sample
  current : Option Track
  queue : List Track
  tickets : List Ticket

def draw (tickets : List Ticket) : Nat → List Track → Draw
  | 0, queue => ⟨[], none, queue, tickets⟩
  | _ + 1, [] => ⟨[], none, [], tickets⟩
  | n + 1, t :: queue =>
    if isCancelled tickets t.id then draw (setFate .gone tickets t.id) (n + 1) queue
    else if n + 1 < t.samples.length then
      ⟨t.samples.take (n + 1), some { t with samples := t.samples.drop (n + 1) }, queue, tickets⟩
    else
      let rest := draw (setFate .played tickets t.id) (n + 1 - t.samples.length) queue
      { rest with samples := t.samples ++ rest.samples }

/-- Plays a block of `n` samples, with silence where nothing waits. -/
def write (p : Playback) (n : Nat) : Playback × List Sample :=
  if n = 0 then (p, [])
  else
    let d := draw p.tickets n (p.current.toList ++ p.queue)
    ({ p with current := d.current, queue := d.queue, tickets := d.tickets },
      d.samples ++ List.replicate (n - d.samples.length) 0)

def cancel (p : Playback) (id : Nat) : Playback :=
  { p with tickets := p.tickets.modify id fun t ↦ { t with cancelled := true } }

def collect (p : Playback) (id : Nat) : Playback × Fate :=
  match p.tickets[id]? with
  | none => (p, .gone)
  | some t =>
    let (t, fate) := t.collect
    ({ p with tickets := p.tickets.set id t }, fate)

def isPlayed (p : Playback) (id : Nat) : Bool := (p.tickets[id]?).any fun t ↦ t.fate = .played

/-- Waits for a packet; nothing is told of one that is still to be played. -/
def await (p : Playback) (id : Nat) : Playback × Option (Except PhyError Unit) :=
  ((p.collect id).1, (p.tickets[id]?).bind Ticket.awaited)

/-- The device is gone: the packet being played is lost, and those in line wait for ever. -/
def disconnect (p : Playback) : Playback where
  current := none
  queue := p.queue
  tickets := p.current.elim p.tickets fun t ↦ setFate .gone p.tickets t.id
  connected := false

end Playback

end SoundLink
