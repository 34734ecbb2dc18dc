namespace SoundLink

namespace Bits

def ofByte (b : UInt8) : List Bool := (List.range 8).map fun i ↦ b.toNat.testBit (7 - i)

/-- The first eight bits as a byte; bits that are missing are zero. -/
def toByte (bits : List Bool) : UInt8 :=
  let padded := bits.take 8 ++ List.replicate (8 - bits.length) false
  UInt8.ofNat (padded.foldl (fun n bit ↦ 2 * n + bit.toNat) 0)

def ofBytes (bytes : List UInt8) : List Bool := bytes.flatMap ofByte

end Bits

variable {α : Type}

/-- How many chunks of `n` it takes to hold `len` items, where `n` is positive. -/
def chunkCount (n len : Nat) : Nat := (len + n - 1) / n

/-- Cuts a list into pieces of `n`, the last of which may be shorter. -/
def chunks (n : Nat) (xs : List α) : List (List α) :=
  if _h : n = 0 ∨ xs = [] then [] else xs.take n :: chunks n (xs.drop n)
termination_by xs.length
decreasing_by
  have := List.length_pos_iff.2 fun e ↦ _h (.inr e)
  simp only [List.length_drop]
  omega

/-- The table of a polynomial: the register after the byte that meets it is shifted through. -/
structure Crc where
  table : Vector UInt8 256

namespace Crc

def shift (polynomial v : UInt8) : UInt8 :=
  if v &&& 0x80 ≠ 0 then (v <<< 1) ^^^ polynomial else v <<< 1

def shifts (polynomial : UInt8) : Nat → UInt8 → UInt8
  | 0, v => v
  | n + 1, v => shifts polynomial n (shift polynomial v)

def ofPolynomial (polynomial : UInt8) : Crc := ⟨Vector.ofFn fun i ↦ shifts polynomial 8 (UInt8.ofFin i)⟩

/-- The polynomial of a link that names none: x^8 + x^2 + x + 1. -/
def defaultPolynomial : UInt8 := 7

variable (c : Crc)

def update (v b : UInt8) : UInt8 := c.table.get (v ^^^ b).toFin

def updateBytes (v : UInt8) (bytes : List UInt8) : UInt8 := bytes.foldl c.update v

/-- Takes bits in groups of eight; zeros fill the last group. -/
def updateBits (v : UInt8) (bits : List Bool) : UInt8 := c.updateBytes v ((chunks 8 bits).map Bits.toByte)

def checksum (bytes : List UInt8) : UInt8 := c.updateBytes 0 bytes

end Crc

end SoundLink
