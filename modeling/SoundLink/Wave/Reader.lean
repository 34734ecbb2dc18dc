import SoundLink.Wave

namespace SoundLink.Wave

abbrev Reader := StateT (List UInt8) (Except Error)

def take (n : Nat) : Reader (List UInt8) := fun bytes ↦
  let taken := bytes.take n
  if taken.length < n then .error .truncated else .ok (taken, bytes.drop n)

def number (width : Nat) : Reader Nat := littleEndian <$> take width

def expect (holds : Bool) (e : Error) : Reader Unit := if holds then pure () else throw e

def integerTail (size bits : Nat) : Reader Unit := do
  expect (size = 16 || size = 18 || size = 40) (.malformed "unexpected fmt chunk size")
  if size ≠ 16 then
    discard (take 2)
    expect (bits = 8 || bits = 16 || bits = 24) (.malformed "bits per sample is not 8 or 16")
  if size = 40 then discard (take 22)

def floatTail (size bits : Nat) : Reader Unit := do
  expect (size = 16 || size = 18) (.malformed "unexpected fmt chunk size")
  if size = 18 then expect ((← number 2) = 0) (.malformed "unexpected WAVEFORMATEX size")
  expect (bits = 32) (.malformed "bits per sample is not 32")

/-- The rest of an extended header: the encoding, and the valid bits unless they are 0. -/
def extendedTail (size bits : Nat) : Reader (Encoding × Nat) := do
  expect (40 ≤ size) (.malformed "unexpected fmt chunk size")
  expect ((← number 2) = 22) (.malformed "unexpected WAVEFORMATEXTENSIBLE size")
  let valid ← number 2
  discard (take 4)
  let identifier ← take 16
  let bits := if valid = 0 then bits else valid
  if identifier = integerIdentifier then return (.integer, bits)
  else if identifier = floatIdentifier then return (.float, bits)
  else throw .unsupported

def headerTail (tag size bits : Nat) : Reader (Encoding × Nat) :=
  if tag = 1 then integerTail size bits *> pure (.integer, bits)
  else if tag = 3 then floatTail size bits *> pure (.float, bits)
  else if tag = extensibleTag then extendedTail size bits
  else throw .unsupported

def header (size : Nat) : Reader Format := do
  expect (16 ≤ size) (.malformed "invalid fmt chunk size")
  let tag ← number 2
  let channels ← number 2
  let rate ← number 4
  let byteRate ← number 4
  let frame ← number 2
  let bits ← number 2
  expect (channels ≠ 0) (.malformed "file contains zero channels")
  let container := frame / channels
  expect (container * 8 < 65536 && bits ≤ container * 8) (.malformed "sample bits exceeds size of sample")
  expect (frame * rate < UInt32.size && byteRate = frame * rate) (.malformed "inconsistent fmt chunk")
  expect (bits % 8 = 0) (.malformed "bits per sample is not a multiple of 8")
  expect (bits ≠ 0) (.malformed "bits per sample is 0")
  let (encoding, bits) ← headerTail tag size bits
  return { channels, rate := UInt32.ofNat rate, bits, container, encoding }

/-- Reads chunks up to the samples and gives the header and the size of the samples. A chunk takes
eight bytes or more, so `fuel` at the size of the file suffices. -/
def chunksUntilData : Nat → Option Format → Reader (Format × Nat)
  | 0, _ => throw .truncated
  | fuel + 1, format => do
    let kind ← take 4
    let size ← number 4
    if kind = ascii "fmt " then chunksUntilData fuel (some (← header size))
    else if kind = ascii "fact" then take 4 *> chunksUntilData fuel format
    else if kind = ascii "data" then match format with
      | some f => return (f, size)
      | none => throw (.malformed "missing fmt chunk")
    else take size *> chunksUntilData fuel format

def prologue : Reader (Format × Nat) := do
  expect ((← take 4) = ascii "RIFF") (.malformed "no RIFF tag found")
  discard (take 4)
  expect ((← take 4) = ascii "WAVE") (.malformed "no WAVE tag found")
  let (f, size) ← chunksUntilData (← get).length none
  expect (size % f.container = 0) (.malformed "data chunk length is not a multiple of sample size")
  expect (size / f.container % f.channels = 0) (.malformed "invalid data chunk length")
  return (f, size / f.container)

def signed (bytes : List UInt8) : Int :=
  let n := littleEndian bytes
  if 2 * n < Nat.pow 256 bytes.length then n else (n : Int) - Nat.pow 256 bytes.length

def scaled (bits : Nat) (i : Int) : Sample := Int32.ofInt i <<< Int32.ofNat (32 - bits)

def decode (f : Format) (bytes : List UInt8) : Except Error Sample :=
  match f.encoding, f.container, f.bits with
  | .integer, 1, 8 => .ok (scaled 8 ((littleEndian bytes : Int) - 128))
  | .integer, 2, 16 => .ok (scaled 16 (signed bytes))
  | .integer, 3, 24 => .ok (scaled 24 (signed bytes))
  | .integer, 4, 24 => .ok (scaled 24 (signed (bytes.take 3)))
  | .integer, 4, 32 => .ok (scaled 32 (signed bytes))
  | .float, 4, 32 => .ok (Sample.ofLevel (.decode .single (littleEndian bytes)))
  | _, container, _ => .error (if 4 < container then .tooWide else .unsupported)

/-- Reads `count` samples; what is read is newest first. -/
def samples (f : Format) : Nat → List Sample → Reader (List Sample)
  | 0, read => return read.reverse
  | count + 1, read => do
    let bytes ← take f.container
    samples f count ((← (decode f bytes : Except Error Sample)) :: read)

def firstChannel (channels : Nat) (interleaved : List Sample) : List Sample :=
  interleaved.zipIdx.filterMap fun (s, i) ↦ if i % channels = 0 then some s else none

/-- Reads `count` samples of the first channel from the bytes after a header. Integers of more than
32 bits cannot be scaled. -/
def readSamples (f : Format) (count : Nat) (body : List UInt8) : Outcome Error Recording :=
  if f.encoding = .integer ∧ 32 < f.bits then .fault .overflow
  else match (samples f count []).run body with
    | .error e => .fail e
    | .ok (interleaved, _) => .ok ⟨f.rate, firstChannel f.channels interleaved⟩

def read (file : List UInt8) : Outcome Error (Format × Recording) := do
  let ((f, count), body) ← (prologue.run file).mapError .error
  return (f, ← readSamples f count body)

end SoundLink.Wave
