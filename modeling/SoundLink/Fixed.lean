import SoundLink.Fault
import SoundLink.Sample
import SoundLink.Binary.Decimal

namespace SoundLink

structure Fixed where
  raw : Int32
  deriving DecidableEq, Repr, Inhabited

namespace Fixed

def fractionBits : Nat := 16

def maxInteger : Nat := 32767

instance : Zero Fixed := ⟨⟨0⟩⟩

instance : One Fixed := ⟨⟨65536⟩⟩

instance : Add Fixed := ⟨fun a b ↦ ⟨a.raw + b.raw⟩⟩

instance : Sub Fixed := ⟨fun a b ↦ ⟨a.raw - b.raw⟩⟩

instance : Neg Fixed := ⟨fun a ↦ ⟨-a.raw⟩⟩

/-- The product rounds to the floor and wraps. -/
instance : Mul Fixed := ⟨fun a b ↦ ⟨((a.raw.toInt64 * b.raw.toInt64) >>> 16).toInt32⟩⟩

instance : LT Fixed := ⟨fun a b ↦ a.raw < b.raw⟩

instance : LE Fixed := ⟨fun a b ↦ a.raw ≤ b.raw⟩

instance (a b : Fixed) : Decidable (a < b) := inferInstanceAs (Decidable (a.raw < b.raw))

instance (a b : Fixed) : Decidable (a ≤ b) := inferInstanceAs (Decidable (a.raw ≤ b.raw))

/-- The quotient rounds toward zero and wraps. -/
def quotient (a b : Fixed) : Fixed := ⟨((a.raw.toInt64 <<< 16) / b.raw.toInt64).toInt32⟩

def div (a b : Fixed) : Except Fault Fixed :=
  if b.raw = 0 then .error .divisionByZero else .ok (a.quotient b)

def ofInt (i : Int32) : Fixed := ⟨i <<< 16⟩

/-- The nearest fixed-point number, halves away from zero, held within the range. -/
def ofBinary (x : Binary) : Fixed :=
  ⟨(Binary.mul .double x (Binary.ofNat .double 65536)).nearestInt32⟩

/-- A full-scale sample as a number in `[-1, 1)`. -/
def ofSample (s : Sample) : Fixed := ⟨s >>> 15⟩

def toBinary (a : Fixed) : Binary := Binary.round .double (a.raw < 0) a.raw.toInt.natAbs 65536

/-- The magnitude; the lowest word has none and gives the highest. -/
def abs (a : Fixed) : Fixed :=
  if a.raw = Int32.minValue then ⟨Int32.maxValue⟩ else if a.raw < 0 then -a else a

def within (lo hi a : Fixed) : Fixed := if a < lo then lo else if hi < a then hi else a

def clamp (a lo hi : Fixed) : Except Fault Fixed :=
  if hi < lo then .error .emptyRange else .ok (within lo hi a)

def lerp (a b t : Fixed) : Fixed := a * (1 - t) + b * t

def compare (a b : Fixed) : Ordering := if a < b then .lt else if b < a then .gt else .eq

def places (n : Nat) (a : Fixed) : String :=
  Binary.places n (a.raw < 0) a.raw.toInt.natAbs 65536

def text (a : Fixed) : String := a.places 4

def tagged (a : Fixed) : String := "Fixed(" ++ a.places 5 ++ ")"

end Fixed

end SoundLink
