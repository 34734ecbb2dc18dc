import SoundLink.Sample

namespace SoundLink

def level (num den : Nat) : Binary := Binary.round .double false num den

namespace Config

structure Device where
  clientName : String := "aether_link"
  sampleRate : UInt32 := 48000
  connectSystemPorts : Bool := true
  deriving DecidableEq

structure Preamble where
  /-- The widest pulse, in samples. -/
  ramp : UInt64 := 4
  amplitude : Binary := level 1 1
  /-- The correlation that a candidate must exceed, in full-scale samples. -/
  threshold : Binary := level 20 1
  deriving DecidableEq

structure Carrier where
  amplitude : Binary := level 1 1
  size : UInt64 := 3
  headerSize : UInt64 := 3
  deriving DecidableEq

structure PowerMonitor where
  threshold : Binary := level 2 5
  window : UInt64 := 10
  deriving DecidableEq

structure Phy where
  bytesPerFrame : UInt64 := 127
  frameInterval : UInt64 := 64
  crcPolynomial : UInt8 := 7
  preamble : Preamble := {}
  carrier : Carrier := {}
  powerMonitor : PowerMonitor := {}
  inputBuffer : UInt64 := 1024
  outputBuffer : UInt64 := 16
  packetBuffer : UInt64 := 64
  deriving DecidableEq

/-- How long to wait after a collision, in milliseconds. -/
inductive Backoff
  | random (min max : UInt64)
  | fixed (delay : UInt64)
  deriving DecidableEq

structure Mac where
  address : UInt8 := 0
  bytesPerFrame : UInt64 := 125
  ackTimeout : UInt64 := 300
  maxRetries : UInt32 := 5
  backoff : Backoff := .random 0 100
  outputBuffer : UInt64 := 64
  deriving DecidableEq

/-- The shortest and the longest delay; a shortest delay above the longest is lowered to it. -/
def Backoff.range : Backoff → UInt64 × UInt64
  | .random lo hi => (min lo hi, hi)
  | .fixed delay => (delay, delay)

def Backoff.delay (b : Backoff) (draw : Nat) : Nat :=
  let (lo, hi) := b.range
  lo.toNat + draw % (hi.toNat - lo.toNat + 1)

def peakSample (amplitude : Binary) : Sample := (Binary.mul .double amplitude Sample.fullScale).nearestInt32

def Preamble.peak (p : Preamble) : Sample := peakSample p.amplitude

def Carrier.peak (c : Carrier) : Sample := peakSample c.amplitude

end Config

structure Config where
  device : Config.Device := {}
  phy : Config.Phy := {}
  mac : Config.Mac := {}
  deriving DecidableEq

def Config.describe (c : Config) : String :=
  s!"addr {c.mac.address} | {c.device.sampleRate} Hz | {c.phy.carrier.size} samples/bit | "
    ++ s!"{c.mac.bytesPerFrame} B/frame | ack {c.mac.ackTimeout} ms x{c.mac.maxRetries}"

end SoundLink
