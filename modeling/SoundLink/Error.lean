import SoundLink.Config.Validity

namespace SoundLink

inductive ConfigError
  | unreadable (path cause : String)
  | malformed
  | invalid (i : Config.Invalid)
  deriving DecidableEq

def ConfigError.message : ConfigError → String
  | .unreadable path cause => "failed to read config " ++ path ++ ": " ++ cause
  | .malformed => "failed to parse config"
  | .invalid i => i.message

inductive DeviceError
  | backend (cause : String)
  | alreadyStarted
  deriving DecidableEq

def DeviceError.message : DeviceError → String
  | .backend cause => "audio backend: " ++ cause
  | .alreadyStarted => "device already started"

/-- Frames in a packet, which one byte numbers. -/
def maxFrames : Nat := 256

inductive PhyError
  | payloadTooLarge (size : Nat)
  | config (e : ConfigError)
  | device (e : DeviceError)
  | sendCancelled
  | closed
  deriving DecidableEq

def PhyError.message : PhyError → String
  | .payloadTooLarge size => s!"payload of {size} bytes needs more than {maxFrames} frames"
  | .config e => e.message
  | .device e => e.message
  | .sendCancelled => "transmission cancelled"
  | .closed => "physical layer is closed"

inductive MacError
  | retriesExhausted (index : UInt8) (attempts : Nat)
  | invalidAddress (address : UInt8)
  | malformedHeader (size : Nat)
  | config (e : ConfigError)
  | phy (e : PhyError)
  | closed
  deriving DecidableEq

def MacError.message : MacError → String
  | .retriesExhausted index attempts => s!"frame {index} was not acknowledged after {attempts} attempts"
  | .invalidAddress address => s!"invalid MAC address {address}"
  | .malformedHeader size => s!"malformed MAC header ({size} bytes)"
  | .config e => e.message
  | .phy e => e.message
  | .closed => "MAC layer is closed"

end SoundLink
