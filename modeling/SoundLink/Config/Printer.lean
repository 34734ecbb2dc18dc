import SoundLink.Config
import SoundLink.Json.Printer

namespace SoundLink.Config

def natural (n : Nat) : Json := .number (.ofNat n)

/-- A double as a number; what no number spells is null. -/
def real (x : Binary) : Json := match Numeral.ofBinary? x with
  | some n => .number n
  | none => .null

def Device.toJson (d : Device) : Json :=
  .object [("client_name", .string d.clientName), ("sample_rate", natural d.sampleRate.toNat),
    ("connect_system_ports", .bool d.connectSystemPorts)]

def Preamble.toJson (p : Preamble) : Json :=
  .object [("n", natural p.ramp.toNat), ("amplitude", real p.amplitude), ("threshold", real p.threshold)]

def Carrier.toJson (c : Carrier) : Json :=
  .object [("amplitude", real c.amplitude), ("size", natural c.size.toNat),
    ("header_size", natural c.headerSize.toNat)]

def PowerMonitor.toJson (p : PowerMonitor) : Json :=
  .object [("threshold", real p.threshold), ("window", natural p.window.toNat)]

def Phy.toJson (p : Phy) : Json :=
  .object [("byte_per_frame", natural p.bytesPerFrame.toNat),
    ("frame_interval", natural p.frameInterval.toNat),
    ("crc_polynomial", natural p.crcPolynomial.toNat), ("preamble", p.preamble.toJson),
    ("carrier", p.carrier.toJson), ("power_monitor", p.powerMonitor.toJson),
    ("input_buffer_size", natural p.inputBuffer.toNat), ("output_buffer_size", natural p.outputBuffer.toNat),
    ("packet_buffer_size", natural p.packetBuffer.toNat)]

def Backoff.toJson : Backoff → Json
  | .random lo hi =>
    .object [("kind", .string "random"), ("min_ms", natural lo.toNat), ("max_ms", natural hi.toNat)]
  | .fixed delay => .object [("kind", .string "fixed"), ("delay_ms", natural delay.toNat)]

def Mac.toJson (m : Mac) : Json :=
  .object [("address", natural m.address.toNat), ("byte_per_frame", natural m.bytesPerFrame.toNat),
    ("ack_timeout_ms", natural m.ackTimeout.toNat), ("max_retries", natural m.maxRetries.toNat),
    ("backoff", m.backoff.toJson), ("output_buffer_size", natural m.outputBuffer.toNat)]

def toJson (c : Config) : Json :=
  .object [("device", c.device.toJson), ("phy", c.phy.toJson), ("mac", c.mac.toJson)]

end SoundLink.Config
