import SoundLink.Frame.Demodulator
import SoundLink.Mac.Sending
import SoundLink.Wave

namespace SoundLink

inductive Level
  | error
  | warn
  | info
  | debug
  | trace
  deriving DecidableEq, Repr

namespace Level

def all : List Level := [error, warn, info, debug, trace]

def name : Level → String
  | error => "ERROR"
  | warn => "WARN"
  | info => "INFO"
  | debug => "DEBUG"
  | trace => "TRACE"

def ofName? (s : String) : Option Level := all.find? (·.name = s.toUpper)

def rank : Level → Nat
  | error => 0
  | warn => 1
  | info => 2
  | debug => 3
  | trace => 4

def shows (l other : Level) : Bool := other.rank ≤ l.rank

end Level

structure LogEntry where
  level : Level
  text : String
  deriving DecidableEq

def LogEntry.line (e : LogEntry) : String := e.level.name ++ " " ++ e.text

def DecodeError.tagged : DecodeError → String
  | .invalidSymbol w => s!"InvalidSymbol({w})"
  | .emptyFrame => "EmptyFrame"
  | .unexpectedIndex expected got => s!"UnexpectedIndex \x7b expected: {expected}, got: {got} \x7d"
  | .crcMismatch computed received => s!"CrcMismatch \x7b computed: {computed}, received: {received} \x7d"

def Stage.name : Stage → String
  | .header _ => "ReceiveHeader"
  | .payload .. => "ReceiveData"
  | .checksum .. => "ReceiveCrc"

def Report.entry : Report → LogEntry
  | .candidate power => ⟨.trace, "Preamble candidate: power " ++ power.text⟩
  | .locked peak left right adjustment => ⟨.debug, "Preamble locked: power " ++ peak.text ++ " (left "
      ++ left.text ++ ", right " ++ right.text ++ "), adjustment " ++ adjustment.text⟩
  | .byte b stage => ⟨.trace, "Decoded byte " ++ Hex.text 2 b.toNat ++ " in " ++ stage.name⟩
  | .restarted dropped => ⟨.debug, s!"New packet started, dropping {dropped} stale bytes"⟩
  | .header h => ⟨.trace, s!"Header: size {h.size}, index {h.index}, last {h.isLast}"⟩
  | .frame index size => ⟨.debug, s!"Frame {index} received ({size} bytes)"⟩
  | .packet bytes => ⟨.debug, s!"Packet complete: {bytes.length} bytes"⟩
  | .failed e => ⟨.debug, "Decode error: " ++ e.message ++ ", resynchronizing"⟩

def delayText (ms : Nat) : String :=
  if ms = 0 then "0ns"
  else if ms < 1000 then s!"{ms}ms"
  else
    let digits := (toString (1000 + ms % 1000)).toList.drop 1
    let fraction := (digits.reverse.dropWhile (· = '0')).reverse
    toString (ms / 1000) ++ (if fraction = [] then "" else "." ++ String.ofList fraction) ++ "s"

def Config.Phy.modulatorEntries (c : Config.Phy) : List LogEntry :=
  [⟨.info, "Modulator initialized:"⟩,
    ⟨.info, s!"  - preamble length: {c.preambleSamples.length} samples"⟩,
    ⟨.info, s!"  - samples per bit: {c.carrier.size} (header {c.carrier.headerSize})"⟩,
    ⟨.info, s!"  - bytes per frame: {c.bytesPerFrame}"⟩]

def Config.Phy.demodulatorEntry (c : Config.Phy) : LogEntry :=
  ⟨.debug, s!"Demodulator initialized: preamble {c.preambleSamples.length} samples, threshold "
    ++ c.preamble.threshold.text⟩

def Config.Phy.openEntry (c : Config.Phy) : LogEntry :=
  ⟨.info, s!"Physical layer open: {c.bytesPerFrame} bytes per frame, {c.carrier.size} samples per bit"⟩

def closedEntry : LogEntry := ⟨.debug, "Physical layer closed"⟩

def modulatedEntry (size frames samples : Nat) : LogEntry :=
  ⟨.debug, s!"Modulated {size} bytes into {frames} frames, total samples: {samples}"⟩

def Modulator.packetSamples (m : Modulator) (size : Nat) : Nat :=
  (chunks m.bytesPerFrame (List.replicate size ())).foldr (fun part n ↦ m.frameSamples part.length + n) 0

def Notice.entries (m : Modulator) (h : MacHeader) (size : Nat) : Notice → List LogEntry
  | .deferred => [⟨.trace, s!"Channel busy, deferring frame {h.index}"⟩]
  | .attempt n =>
    let samples := m.packetSamples size
    [modulatedEntry size (chunkCount m.bytesPerFrame size) samples,
      ⟨.debug, s!"Queueing {size} bytes as {samples} samples"⟩,
      ⟨.trace, s!"Transmitting frame {h.index} (attempt {n})"⟩]
  | .collision e => [⟨.debug, s!"Collision while sending frame {h.index}: Ok({e.tagged})"⟩]
  | .disturbance e => [⟨.debug, s!"Decode error while awaiting ACK {h.index}: Ok({e.tagged})"⟩]
  | .acknowledged => [⟨.trace, s!"Frame {h.index} acknowledged"⟩]
  | .timeout n =>
    [if n = 1 then ⟨.warn, s!"ACK timeout for frame {h.index} to {h.destination}"⟩
      else ⟨.debug, s!"ACK timeout for frame {h.index} ({n} so far)"⟩]
  | .backedOff delay n => [⟨.debug, s!"Backing off {delayText delay} before retry {n}"⟩]
  | .gaveUp n => [⟨.warn, s!"Frame {h.index} to {h.destination} gave up after {n} attempts"⟩]

def Remark.entries (m : Modulator) : Remark → List LogEntry
  | .sending size destination frames =>
    [⟨.info, s!"Sending {size} bytes to {destination} in {frames} frames"⟩]
  | .frame h size notice => notice.entries m h size
  | .delivered frames destination => [⟨.debug, s!"All {frames} frames to {destination} acknowledged"⟩]

def Wave.Encoding.name : Wave.Encoding → String
  | .integer => "Int"
  | .float => "Float"

def Wave.Format.entry (f : Wave.Format) : LogEntry :=
  ⟨.debug, s!"WAV spec: {f.rate} Hz, {f.channels} ch, {f.bits} bit {f.encoding.name}"⟩

def Recording.entry (r : Recording) (path : String) : LogEntry :=
  let seconds := Binary.div .double (.ofNat .double r.samples.length) (.ofNat .double r.rate.toNat)
  ⟨.info, s!"Wrote {r.samples.length} samples ({seconds.fixedText 2} s) to {path}"⟩

end SoundLink
