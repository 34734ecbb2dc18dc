import SoundLink.Fault
import SoundLink.Sample

namespace SoundLink

structure Recording where
  rate : UInt32
  samples : List Sample
  deriving DecidableEq

namespace Wave

inductive Error
  | file (cause : String)
  | truncated
  | malformed (reason : String)
  | unsupported
  | tooWide
  deriving DecidableEq

def Error.message : Error → String
  | .file cause => cause
  | .truncated => "Failed to read enough bytes."
  | .malformed reason => "Ill-formed WAVE file: " ++ reason
  | .unsupported => "The wave format of the file is not supported."
  | .tooWide => "The sample has more bits than the destination type."

inductive Encoding
  | integer
  | float
  deriving DecidableEq

structure Format where
  channels : Nat
  rate : UInt32
  bits : Nat
  container : Nat
  encoding : Encoding
  deriving DecidableEq

def ascii (s : String) : List UInt8 := s.toList.map fun c ↦ UInt8.ofNat c.toNat

def littleEndian (bytes : List UInt8) : Nat := bytes.foldr (fun b n ↦ b.toNat + 256 * n) 0

/-- The lowest `width` bytes of a number, the lowest first. -/
def bytesOf : Nat → Nat → List UInt8
  | 0, _ => []
  | width + 1, n => UInt8.ofNat n :: bytesOf width (n / 256)

/-- The end that the identifiers of the two sample encodings have in common. -/
def identifierTail : List UInt8 := [0, 0, 0, 0, 16, 0, 128, 0, 0, 170, 0, 56, 155, 113]

def integerIdentifier : List UInt8 := 1 :: 0 :: identifierTail

def floatIdentifier : List UInt8 := 3 :: 0 :: identifierTail

/-- The tag of a header that goes on with valid bits, a speaker mask and an identifier. -/
def extensibleTag : Nat := 0xfffe

def formatChunk (rate : UInt32) : List UInt8 :=
  ascii "fmt " ++ bytesOf 4 40 ++ bytesOf 2 extensibleTag ++ bytesOf 2 1 ++ bytesOf 4 rate.toNat
    ++ bytesOf 4 (rate.toNat * 4) ++ bytesOf 2 4 ++ bytesOf 2 32 ++ bytesOf 2 22 ++ bytesOf 2 32
    ++ bytesOf 4 1
    ++ integerIdentifier

def sampleBytes (s : Sample) : List UInt8 := bytesOf 4 s.toUInt32.toNat

def write (r : Recording) : List UInt8 :=
  let size := 4 * r.samples.length
  ascii "RIFF" ++ bytesOf 4 (60 + size) ++ ascii "WAVE" ++ formatChunk r.rate ++ ascii "data"
    ++ bytesOf 4 size
    ++ r.samples.flatMap sampleBytes

end Wave

end SoundLink
