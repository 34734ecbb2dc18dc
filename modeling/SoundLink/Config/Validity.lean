import SoundLink.Config
import SoundLink.Fault
import SoundLink.Fixed
import SoundLink.Sample

namespace SoundLink.Config

inductive Flaw
  | empty
  | notPositive
  | outside (n lo hi : Nat)
  | amplitude (x : Binary)
  | threshold (x top : Binary)
  | correlation (x : Binary)
  | window (n : Nat)
  /-- The payload of a frame and the header of `overhead` bytes do not fit into `room` bytes. -/
  | headroom (n overhead room : Nat)
  /-- The same, found when a layer is put on top of another. -/
  | overhang (n room : Nat)
  | order (min max : Nat)
  deriving DecidableEq

structure Invalid where
  field : String
  flaw : Flaw
  deriving DecidableEq

def Flaw.message : Flaw → String
  | .empty => "empty"
  | .notPositive => "must be positive"
  | .outside n lo hi => s!"{n} is outside {lo}..={hi}"
  | .amplitude x => x.text ++ " is outside (0, 1]"
  | .threshold x top => x.text ++ " is outside (0, " ++ top.text ++ ")"
  | .correlation x => "correlation of " ++ x.text ++ s!" overflows fixed point (max {Fixed.maxInteger})"
  | .window n => s!"{n} samples overflow fixed point (max {Fixed.maxInteger})"
  | .headroom n overhead room =>
    s!"{n} bytes plus the {overhead}-byte MAC header exceed phy.byte_per_frame ({room})"
  | .overhang n room => s!"{n} plus header exceeds the {room} byte physical frame"
  | .order lo hi => s!"min_ms {lo} exceeds max_ms {hi}"

def Invalid.message (i : Invalid) : String := "invalid " ++ i.field ++ ": " ++ i.flaw.message

abbrev Check := Outcome Invalid Unit

def require (holds : Bool) (field : String) (flaw : Flaw) : Check :=
  if holds then .ok () else .fail ⟨field, flaw⟩

def counted (n : Nat) : Outcome Invalid Nat := if n < UInt64.size then .ok n else .fault .overflow

def macHeaderBytes : Nat := 2

def maxPayload : Nat := 127

def maxAddress : Nat := 7

def Device.check (d : Device) : Check := do
  require (d.clientName ≠ "") "device.client_name" .empty
  require (d.sampleRate ≠ 0) "device.sample_rate" .notPositive

def checkAmplitude (field : String) (x : Binary) : Check :=
  require ((Binary.zero .double).lt x && x.le (level 1 1)) field (.amplitude x)

def checkThreshold (field : String) (x top : Binary) : Check :=
  require ((Binary.zero .double).lt x && x.lt top) field (.threshold x top)

def checkWindow (field : String) (n : UInt64) : Check := do
  require (n ≠ 0) field .notPositive
  require (n.toNat ≤ Fixed.maxInteger) field (.window n.toNat)

def checkCapacity (field : String) (n : UInt64) : Check := require (n ≠ 0) field .notPositive

/-- The correlation of a perfect match must pass the threshold, and the highest correlation any
input reaches must stay in fixed point. -/
def Preamble.check (p : Preamble) : Check := do
  let length := Binary.ofNat .double (← counted (SoundLink.Preamble.length p.ramp.toNat))
  let correlation := Binary.mul .double length p.amplitude
  checkThreshold "phy.preamble.threshold" p.threshold (Binary.mul .double correlation p.amplitude)
  require (correlation.lt (Binary.ofNat .double Fixed.maxInteger)) "phy.preamble.n"
    (.correlation correlation)

def Phy.check (p : Phy) : Check := do
  require (p.bytesPerFrame ≠ 0 && p.bytesPerFrame.toNat ≤ maxPayload) "phy.byte_per_frame"
    (.outside p.bytesPerFrame.toNat 1 maxPayload)
  require (p.preamble.ramp ≠ 0) "phy.preamble.n" .notPositive
  checkAmplitude "phy.preamble.amplitude" p.preamble.amplitude
  checkAmplitude "phy.carrier.amplitude" p.carrier.amplitude
  p.preamble.check
  checkWindow "phy.carrier.size" p.carrier.size
  checkWindow "phy.carrier.header_size" p.carrier.headerSize
  checkWindow "phy.power_monitor.window" p.powerMonitor.window
  checkThreshold "phy.power_monitor.threshold" p.powerMonitor.threshold (level 1 1)
  checkCapacity "phy.input_buffer_size" p.inputBuffer
  checkCapacity "phy.output_buffer_size" p.outputBuffer
  checkCapacity "phy.packet_buffer_size" p.packetBuffer

def Backoff.check : Backoff → Check
  | .random lo hi => require (lo ≤ hi) "mac.backoff" (.order lo.toNat hi.toNat)
  | .fixed _ => .ok ()

def Mac.check (m : Mac) : Check := do
  require (m.address.toNat ≤ maxAddress) "mac.address" (.outside m.address.toNat 0 maxAddress)
  require (m.bytesPerFrame ≠ 0) "mac.byte_per_frame" .notPositive
  require (m.ackTimeout ≠ 0) "mac.ack_timeout_ms" .notPositive
  require (m.outputBuffer ≠ 0) "mac.output_buffer_size" .notPositive
  m.backoff.check

def check (c : Config) : Check := do
  c.device.check
  c.phy.check
  c.mac.check
  let size ← counted (c.mac.bytesPerFrame.toNat + macHeaderBytes)
  require (size ≤ c.phy.bytesPerFrame.toNat) "mac.byte_per_frame"
    (.headroom c.mac.bytesPerFrame.toNat macHeaderBytes c.phy.bytesPerFrame.toNat)

end SoundLink.Config
