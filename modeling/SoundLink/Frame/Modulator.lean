import SoundLink.Crc
import SoundLink.Error
import SoundLink.Frame.Header
import SoundLink.LineCode

namespace SoundLink

structure Modulator where
  preamble : List Sample
  amplitude : Sample
  size : Nat
  headerSize : Nat
  bytesPerFrame : Nat
  interval : Nat
  crc : Crc

namespace Config.Phy

def preambleSamples (p : Phy) : List Sample :=
  SoundLink.Preamble.samples p.preamble.ramp.toNat p.preamble.peak

def modulator (p : Phy) : Modulator where
  preamble := p.preambleSamples
  amplitude := p.carrier.peak
  size := p.carrier.size.toNat
  headerSize := p.carrier.headerSize.toNat
  bytesPerFrame := p.bytesPerFrame.toNat
  interval := p.frameInterval.toNat
  crc := .ofPolynomial p.crcPolynomial

end Config.Phy

namespace Modulator

variable (m : Modulator)

def frameCount (len : Nat) : Except Fault Nat :=
  if m.bytesPerFrame = 0 then .error .divisionByZero else .ok (chunkCount m.bytesPerFrame len)

def frameSamples (len : Nat) : Nat :=
  m.preamble.length + 2 * LineCode.wordBits * m.headerSize + (len + 1) * LineCode.wordBits * m.size
    + m.interval

def level (size : Nat) (bit : Bool) : List Sample :=
  List.replicate size (if bit then -m.amplitude else m.amplitude)

def byteSamples (size : Nat) (b : UInt8) : List Sample := (LineCode.sent b).flatMap (m.level size)

def frame (header : FrameHeader) (payload : List UInt8) : List Sample :=
  m.preamble ++ header.bytes.flatMap (m.byteSamples m.headerSize) ++ payload.flatMap (m.byteSamples m.size)
    ++ m.byteSamples m.size (m.crc.checksum payload) ++ List.replicate m.interval 0

def frames (bytes : List UInt8) : List (FrameHeader × List UInt8) :=
  let parts := chunks m.bytesPerFrame bytes
  parts.mapIdx fun i part ↦ (.ofSize part.length (i + 1 = parts.length) (UInt8.ofNat i), part)

def modulate (bytes : List UInt8) : Outcome PhyError (List Sample) :=
  match m.frameCount bytes.length with
  | .error f => .fault f
  | .ok count =>
    if maxFrames < count then .fail (.payloadTooLarge bytes.length)
    else .ok ((m.frames bytes).flatMap fun (header, part) ↦ m.frame header part)

end Modulator

end SoundLink
