import SoundLink.Frame.Demodulator
import SoundLink.Playback
import SoundLink.PowerMonitor
import SoundLink.Queue

namespace SoundLink

structure Modem where
  modulator : Modulator
  demodulator : Demodulator
  bytesPerFrame : Nat
  playback : Playback
  monitor : PowerMonitor
  backlog : Backlog (List Sample)
  state : Demodulator.State
  packets : Queue (List UInt8)
  errors : Signal DecodeError
  closed : Bool

namespace Modem

def ofConfig (c : Config.Phy) : Modem where
  modulator := c.modulator
  demodulator := c.demodulator
  bytesPerFrame := c.bytesPerFrame.toNat
  playback := {}
  monitor := .ofConfig c.powerMonitor
  backlog := .empty c.inputBuffer.toNat
  state := .initial
  packets := .empty c.packetBuffer.toNat
  errors := {}
  closed := false

def start (c : Config.Phy) (device : Except DeviceError Unit) : Outcome PhyError Modem := do
  Outcome.lift (PhyError.config ∘ .invalid) c.check
  ([c.outputBuffer, c.inputBuffer, c.packetBuffer].forM fun n ↦ Queue.reserve n.toNat).mapError .fault
  (device.mapError PhyError.device).mapError .error
  return ofConfig c

def send (m : Modem) (bytes : List UInt8) : Outcome PhyError (Modem × Nat) := do
  let samples ← m.modulator.modulate bytes
  let (playback, id) ← (m.playback.enqueue samples).mapError .error
  return ({ m with playback }, id)

def deliver (m : Modem) : Event → Modem
  | .packet bytes => { m with packets := (m.packets.push bytes).1 }
  | .error e => { m with errors := m.errors.notify e }

def decode (m : Modem) : Modem :=
  let (backlog, blocks) := m.backlog.drain
  blocks.foldl (fun m block ↦
    let (state, reports) := m.demodulator.run m.state block
    (Demodulator.events reports).foldl deliver { m with state }) { m with backlog }

/-- Runs one period of the device: takes a block of input, plays `n` samples and decodes. -/
def tick (m : Modem) (input : List Sample) (n : Nat) : Except Fault (Modem × List Sample) := do
  let monitor ← m.monitor.update input
  let (playback, output) := m.playback.write n
  return ({ m with monitor, playback, backlog := m.backlog.push input }.decode, output)

/-- Takes a packet. Once the modem is closed and nothing waits, there is no more to come. -/
def receive (m : Modem) : Modem × Except PhyError (Option (List UInt8)) :=
  match m.packets.tryReceive with
  | (packets, some bytes) => ({ m with packets }, .ok (some bytes))
  | (_, none) => (m, if m.closed then .error .closed else .ok none)

def close (m : Modem) : Modem := { m with playback := m.playback.disconnect, closed := true }

end Modem

end SoundLink
