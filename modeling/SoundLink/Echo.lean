import SoundLink.Device
import SoundLink.Modem

namespace SoundLink

structure Echo where
  modem : Modem
  device : Loopback
  handles : List Nat
  told : List (Nat × Fate)
  received : List (List UInt8)

inductive Act
  | send (bytes : List UInt8)
  | tick
  | poll (handle : Nat)
  | receive
  deriving DecidableEq

def Act.sent? : Act → Option (List UInt8)
  | .send bytes => some bytes
  | _ => none

def Act.sent (acts : List Act) : List (List UInt8) := acts.filterMap Act.sent?

namespace Echo

def start (c : Config.Phy) (size : Nat) : Outcome PhyError Echo := do
  let started := (Loopback.ofSize size).start
  let modem ← Modem.start c (started.map fun _ ↦ ())
  let device ← (started.mapError PhyError.device).mapError .error
  return ⟨modem, device, [], [], []⟩

def act (e : Echo) : Act → Outcome PhyError Echo
  | .send bytes => do
    let (modem, handle) ← e.modem.send bytes
    return { e with modem, handles := e.handles ++ [handle] }
  | .tick => match e.device.heard with
    | none => return e
    | some block => do
      let (modem, output) ← (e.modem.tick block e.device.size).mapError .fault
      return { e with modem, device := e.device.tick (Device.overlay output) }
  | .poll handle =>
    let (playback, fate) := e.modem.playback.collect handle
    .ok { e with modem := { e.modem with playback }, told := e.told ++ [(handle, fate)] }
  | .receive => match e.modem.receive with
    | (modem, .ok packet) => .ok { e with modem, received := e.received ++ packet.toList }
    | (_, .error err) => .error (.error err)

def run (e : Echo) (acts : List Act) : Outcome PhyError Echo := acts.foldlM act e

/-- How often the end of a packet has been signalled: each time that it was told, and once more if
it still waits to be told. -/
def fired (e : Echo) (handle : Nat) : Nat :=
  e.told.count (handle, .played) + if e.modem.playback.isPlayed handle then 1 else 0

end Echo

end SoundLink
