import SoundLink.Crc
import SoundLink.Mac.Reassembly
import SoundLink.Queue

namespace SoundLink

structure Station where
  address : UInt8
  bytesPerFrame : Nat
  maxRetries : Nat
  backoff : Config.Backoff
  /-- The source and the index of the acknowledgement that is waited for. -/
  awaiting : Option (UInt8 × UInt8) := none
  acks : Signal UInt8 := {}
  reassembler : Reassembler := .empty
  output : Queue (List UInt8)
  closed : Bool := false

namespace Station

def ofConfig (c : Config.Mac) : Station where
  address := c.address
  bytesPerFrame := c.bytesPerFrame.toNat
  maxRetries := c.maxRetries.toNat
  backoff := c.backoff
  output := .empty c.outputBuffer.toNat

def checkRoom (c : Config.Mac) (room : Nat) : Config.Check := do
  let size ← Config.counted (c.bytesPerFrame.toNat + Config.macHeaderBytes)
  Config.require (size ≤ room) "mac.byte_per_frame" (.overhang c.bytesPerFrame.toNat room)

def start (c : Config.Mac) (room : Nat) : Outcome MacError Station := do
  Outcome.lift (MacError.config ∘ .invalid) c.check
  Outcome.lift (MacError.config ∘ .invalid) (checkRoom c room)
  (Queue.reserve c.outputBuffer.toNat).mapError .fault
  return ofConfig c

/-- Takes a packet; hands out the acknowledgement that it calls for. Packets for others are passed
over. -/
def handle (s : Station) (packet : List UInt8) : Station × Option MacHeader :=
  match MacHeader.parse packet with
  | .error _ => (s, none)
  | .ok (h, part) =>
    if h.destination ≠ s.address then (s, none)
    else match h.kind with
      | .ack =>
        let awaited := s.awaiting = some (h.source, h.index)
        (if awaited then { s with acks := s.acks.notify h.index } else s, none)
      | .data =>
        let (reassembler, acceptance) := s.reassembler.accept h part
        let s := { s with reassembler }
        match acceptance with
        | .accepted none => (s, some h.acknowledgement)
        | .accepted (some payload) =>
          ({ s with output := (s.output.push payload).1 }, some h.acknowledgement)
        | .duplicate => (s, some h.acknowledgement)
        | .dropped => (s, none)

def handleAll (s : Station) (packets : List (List UInt8)) : Station × List MacHeader :=
  packets.foldl (fun (s, acks) packet ↦
    let (s, ack) := s.handle packet
    (s, acks ++ ack.toList)) (s, [])

/-- Takes a received payload. Once the station is closed and nothing waits, there is no more to come. -/
def receive (s : Station) : Station × Except MacError (Option (List UInt8)) :=
  match s.output.tryReceive with
  | (output, some payload) => ({ s with output }, .ok (some payload))
  | (_, none) => (s, if s.closed then .error .closed else .ok none)

def close (s : Station) : Station := { s with closed := true }

def frames (s : Station) (destination : UInt8) (payload : List UInt8) : List (MacHeader × List UInt8) :=
  let parts := chunks s.bytesPerFrame payload
  parts.mapIdx fun i part ↦ (.data s.address destination (UInt8.ofNat i) (i + 1 = parts.length), part)

end Station

end SoundLink
