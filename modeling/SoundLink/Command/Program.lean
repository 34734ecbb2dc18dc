import SoundLink.Command.Arguments
import SoundLink.Command.Log
import SoundLink.Config.Reader
import SoundLink.Config.Printer
import SoundLink.Device
import SoundLink.Json.Printer
import SoundLink.Mac.Air
import SoundLink.Modem
import SoundLink.Wave.Reader

namespace SoundLink

/-- What the program needs of its surroundings. A file that cannot be read or written comes with the
cause. -/
structure Host (m : Type → Type) where
  load : String → m (Except String (List UInt8))
  store : String → List UInt8 → m (Except String Unit)
  print : String → m Unit
  complain : String → m Unit
  log : LogEntry → m Unit
  clock : m Nat
  /-- Waits until the user interrupts or so many seconds are over, 0 for no limit; says whether the
  time is over. -/
  pause : Nat → m Bool

namespace Program

abbrev Act (m : Type → Type) := ExceptT (Failure String) m

variable {m : Type → Type} [Monad m] (h : Host m)

def configText (e : ConfigError) : String :=
  match e with
  | .unreadable _ cause => e.message ++ ": " ++ cause
  | _ => e.message

def settle {ε α : Type} (text : ε → String) (o : Outcome ε α) : Act m α :=
  ExceptT.mk (pure (Outcome.lift text o))

def fail {α : Type} (text : String) : Act m α := throw (.error text)

def log (level : Level) (text : String) : Act m Unit := h.log ⟨level, text⟩

def logAll (entries : List LogEntry) : Act m Unit := entries.forM fun e ↦ h.log e

def readInput (path : String) : Act m (List UInt8) := do
  match ← h.load path with
  | .ok bytes => return bytes
  | .error cause => fail s!"reading {path}: {cause}"

def writeOutput (path : String) (bytes : List UInt8) : Act m Unit := do
  match ← h.store path bytes with
  | .ok () => return
  | .error cause => fail s!"writing {path}: {cause}"

def configuration (a : Arguments) : Act m Config := do
  let config ← match a.config with
    | none => pure {}
    | some path =>
      let config ← settle configText (Config.load path (← h.load path))
      log h .info s!"Loaded configuration from {path}"
      pure config
  let config := match a.address with
    | none => config
    | some address => { config with mac.address := address }
  settle Config.Invalid.message config.check
  return config

def blockSize : Nat := 512

def openStation (loopback : Bool) (c : Config) : Act m Station := do
  logAll h (c.phy.modulatorEntries ++ [c.phy.demodulatorEntry])
  let modem ← settle (fun e : PhyError ↦ "opening physical layer: " ++ e.message)
    (Modem.start c.phy (if loopback then .ok () else c.device.start))
  if loopback then log h .debug s!"Loopback started ({blockSize} samples per block)"
  h.log c.phy.openEntry
  let station ← settle MacError.message (Station.start c.mac modem.bytesPerFrame)
  log h .info s!"MAC layer open at address {station.address}"
  return station

/-- Closes a station; each of the layers that hold it makes sure of that. -/
def closeStation : Act m Unit := logAll h (List.replicate 3 closedEntry)

def thenClose (act : Act m Unit) : Act m Unit := ExceptT.mk do
  let result ← act.run
  discard (closeStation h).run
  return result

def sendParts (c : Config) (destination : UInt8) : Session (List Station) → List (List UInt8) → Act m Unit
  | _, [] => return
  | w, part :: rest => do
    let (w, result) := w.send (Medium.shared c.phy.carry) destination part
    logAll h (w.remarks.flatMap (Remark.entries c.phy.modulator))
    match result with
    | .error e => fail s!"sending to {destination}: {e.message}"
    | .ok () => sendParts c destination { w with remarks := [] } rest

def sendPayload (c : Config) (station : Station) (destination : UInt8) (payload : List UInt8) (chunk : Nat) :
    Act m Unit := do
  if payload.isEmpty then log h .warn "Nothing to send"
  else
    let start ← h.clock
    sendParts h c destination ⟨station, [], []⟩ (chunks (max 1 chunk) payload)
    let stop ← h.clock
    let elapsed := Binary.places 2 false (stop - start) 1000
    log h .info s!"Sent {payload.length} bytes to {destination} in {elapsed} s"

def send (a : Arguments) (c : Config) (destination : UInt8) (input text : Option String)
    (chunk : UInt64) : Act m Unit := do
  let payload ← match input, text with
    | some path, _ => readInput h path
    | none, some text => pure (Utf8.encode text)
    | none, none => fail "either --input or --text is required"
  log h .info c.describe
  let station ← openStation h a.loopback c
  thenClose h (sendPayload h c station destination payload chunk.toNat)

/-- Listens until it is over. No device of this program brings packets of others, so none arrive. -/
def listen (output : Option String) (timeout : UInt64) : Act m Unit := do
  if ← h.pause timeout.toNat then log h .info "Receive timeout reached"
  match output with
  | none => return
  | some path =>
    let received : List UInt8 := []
    writeOutput h path received
    log h .info s!"Wrote {received.length} bytes to {path}"

def receive (a : Arguments) (c : Config) (output : Option String) (timeout : UInt64) : Act m Unit := do
  log h .info c.describe
  discard (openStation h a.loopback c)
  thenClose h (listen h output timeout)

def modulate (c : Config) (input output : String) : Act m Unit := do
  let payload ← readInput h input
  logAll h c.phy.modulatorEntries
  let m := c.phy.modulator
  let samples ← settle PhyError.message (m.modulate payload)
  let frames := chunkCount m.bytesPerFrame payload.length
  h.log (modulatedEntry payload.length frames samples.length)
  let recording : Recording := ⟨c.device.sampleRate, samples⟩
  match ← h.store output (Wave.write recording) with
  | .error cause => fail (Wave.Error.file cause).message
  | .ok () =>
    h.log (recording.entry output)
    log h .info s!"{payload.length} bytes in {frames} frames"

def readRecording (path : String) : Act m Recording := do
  match ← h.load path with
  | .error cause => fail (Wave.Error.file cause).message
  | .ok file =>
    let ((f, count), body) ← settle Wave.Error.message ((Wave.prologue.run file).mapError .error)
    h.log f.entry
    settle Wave.Error.message (Wave.readSamples f count body)

def eventEntry : Event → LogEntry
  | .packet bytes => ⟨.info, s!"Packet of {bytes.length} bytes"⟩
  | .error e => ⟨.warn, "Decode error: " ++ e.message⟩

def packet? : Event → Option (List UInt8)
  | .packet bytes => some bytes
  | .error _ => none

def demodulate (c : Config) (input : String) (output : Option String) : Act m Unit := do
  let recording ← readRecording h input
  if recording.rate ≠ c.device.sampleRate then
    log h .warn s!"Recording is {recording.rate} Hz, configuration expects {c.device.sampleRate} Hz"
  let peak := (Sample.peak recording.samples).fixedText 3
  log h .info s!"Read {recording.samples.length} samples, peak level {peak}"
  h.log c.phy.demodulatorEntry
  let (_, reports) := c.phy.demodulator.run .initial recording.samples
  logAll h (reports.map Report.entry)
  let events := Demodulator.events reports
  logAll h (events.map eventEntry)
  let packets := events.filterMap packet?
  let decoded := packets.flatten
  log h .info s!"Decoded {decoded.length} bytes, {events.length - packets.length} errors"
  match output with
  | some path => writeOutput h path decoded
  | none => h.print (Utf8.decodeLossy decoded)

def runCommand (a : Arguments) : Act m Unit := do
  let c ← configuration h a
  match a.command with
  | .send destination input text chunk => send h a c destination input text chunk
  | .receive output timeout _ => receive h a c output timeout
  | .modulate input output => modulate h c input output
  | .demodulate input output => demodulate h c input output
  | .config => h.print (c.toJson.write .indented)

def name : String := "aether-link"

def banner : String := name ++ " 0.0.1"

def usage : List String :=
  s!"Usage: {name} [OPTIONS] <COMMAND>" :: "" :: "Commands:"
    :: Arguments.CommandName.all.map fun c ↦ "  " ++ c.text ++ ": " ++ c.about

def run (args : List String) : m UInt32 := do
  h.print banner
  match Arguments.parse args with
  | .error e => h.complain s!"error: {e.message}"; return 2
  | .ok .version => h.print banner; return 0
  | .ok .help => usage.forM h.print; return 0
  | .ok (.run a) => match ← (runCommand h a).run with
    | .ok () => return 0
    | .error (.error text) => h.log ⟨.error, text⟩; return 1
    | .error (.fault _) => return 101

end Program

end SoundLink
