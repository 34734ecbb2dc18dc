namespace SoundLink

inductive Binary
  | nan
  | infinite (negative : Bool)
  /-- The value `mantissa * 2 ^ exponent`, negated when `negative`; a zero keeps its sign. -/
  | finite (negative : Bool) (mantissa : Nat) (exponent : Int)
  deriving DecidableEq, Repr

namespace Binary

structure Format where
  precision : Nat
  exponentBits : Nat
  deriving DecidableEq, Repr

namespace Format

def double : Format := ⟨53, 11⟩

def single : Format := ⟨24, 8⟩

variable (f : Format)

def bias : Nat := Nat.pow 2 (f.exponentBits - 1) - 1

def minExponent : Int := 2 - f.bias - f.precision

def maxExponent : Int := f.bias + 1 - f.precision

def hidden : Nat := Nat.pow 2 (f.precision - 1)

end Format

/-- The fraction `num / den * 2 ^ (-exponent)` as a numerator and a denominator. -/
def scaled (num den : Nat) : Int → Nat × Nat
  | .ofNat e => (num, den <<< e)
  | .negSucc e => (num <<< (e + 1), den)

def nearestEven (num den : Nat) : Nat :=
  let q := num / den
  let r := num % den
  if 2 * r < den then q else if den < 2 * r then q + 1 else q + q % 2

def nearestUp (num den : Nat) : Nat := (2 * num + den) / (2 * den)

def round (f : Format) (negative : Bool) (num den : Nat) : Binary :=
  if num = 0 then .finite negative 0 f.minExponent
  else
    let low := max f.minExponent ((num.log2 : Int) - den.log2 - f.precision)
    let (n, d) := scaled num den low
    let exponent := if n / d < Nat.pow 2 f.precision then low else low + 1
    let (n, d) := scaled num den exponent
    let mantissa := nearestEven n d
    let (mantissa, exponent) :=
      if mantissa = Nat.pow 2 f.precision then (f.hidden, exponent + 1) else (mantissa, exponent)
    if f.maxExponent < exponent then .infinite negative else .finite negative mantissa exponent

def ofNat (f : Format) (n : Nat) : Binary := round f false n 1

def ofInt (f : Format) (i : Int) : Binary := round f (i < 0) i.natAbs 1

def decode (f : Format) (word : Nat) : Binary :=
  let fraction := word % f.hidden
  let field := word / f.hidden % Nat.pow 2 f.exponentBits
  let negative := word / (f.hidden * Nat.pow 2 f.exponentBits) % 2 = 1
  if field = Nat.pow 2 f.exponentBits - 1 then if fraction = 0 then .infinite negative else .nan
  else if field = 0 then .finite negative fraction f.minExponent
  else .finite negative (f.hidden + fraction) (f.minExponent + (field - 1 : Nat))

/-- The word of a datum that `round` or `decode` gives for the format. -/
def encode (f : Format) : Binary → Nat
  | .nan => (Nat.pow 2 f.exponentBits - 1) * f.hidden + f.hidden / 2
  | .infinite s => s.toNat * (f.hidden * Nat.pow 2 f.exponentBits) + (Nat.pow 2 f.exponentBits - 1) * f.hidden
  | .finite s m e =>
    s.toNat * (f.hidden * Nat.pow 2 f.exponentBits) + (e - f.minExponent).toNat * f.hidden + m

def zero (f : Format) : Binary := .finite false 0 f.minExponent

def neg : Binary → Binary
  | .nan => .nan
  | .infinite s => .infinite !s
  | .finite s m e => .finite (!s) m e

def abs : Binary → Binary
  | .nan => .nan
  | .infinite _ => .infinite false
  | .finite _ m e => .finite false m e

def isZero : Binary → Bool
  | .finite _ 0 _ => true
  | _ => false

def isInfinite : Binary → Bool
  | .infinite _ => true
  | _ => false

def fraction (m : Nat) : Int → Nat × Nat
  | .ofNat e => (m <<< e, 1)
  | .negSucc e => (m, 1 <<< (e + 1))

def convert (f : Format) : Binary → Binary
  | .finite s m e => let (n, d) := fraction m e; round f s n d
  | x => x

def mul (f : Format) : Binary → Binary → Binary
  | .nan, _ => .nan
  | _, .nan => .nan
  | .infinite s, .infinite t => .infinite (s != t)
  | .infinite s, .finite t m _ => if m = 0 then .nan else .infinite (s != t)
  | .finite s m _, .infinite t => if m = 0 then .nan else .infinite (s != t)
  | .finite s m e, .finite t n d => let (a, b) := fraction (m * n) (e + d); round f (s != t) a b

def div (f : Format) : Binary → Binary → Binary
  | .nan, _ => .nan
  | _, .nan => .nan
  | .infinite _, .infinite _ => .nan
  | .infinite s, .finite t _ _ => .infinite (s != t)
  | .finite s _ _, .infinite t => .finite (s != t) 0 f.minExponent
  | .finite s m e, .finite t n d =>
    if n = 0 then if m = 0 then .nan else .infinite (s != t)
    else let (a, b) := fraction m (e - d); round f (s != t) a (b * n)

/-- The value of a finite datum in units of `2 ^ unit`, where `unit` is at most its exponent. -/
def units (unit : Int) (s : Bool) (m : Nat) (e : Int) : Int :=
  let n : Int := m <<< (e - unit).toNat
  if s then -n else n

/-- The order of values: both zeros are equal and a NaN is below nothing. -/
def lt : Binary → Binary → Bool
  | .nan, _ => false
  | _, .nan => false
  | .infinite s, .infinite t => s && !t
  | .infinite s, .finite .. => s
  | .finite .., .infinite t => !t
  | .finite s m e, .finite t n d => units (min e d) s m e < units (min e d) t n d

def le : Binary → Binary → Bool
  | .nan, _ => false
  | _, .nan => false
  | x, y => !lt y x

def saturate (negative : Bool) (n : Nat) : Int32 :=
  if negative then if n < Nat.pow 2 31 then Int32.ofInt (-n) else Int32.minValue
  else if n < Nat.pow 2 31 then Int32.ofNat n else Int32.maxValue

/-- The nearest 32-bit word, halves away from zero; out of range is the nearest bound, NaN is 0. -/
def nearestInt32 : Binary → Int32
  | .nan => 0
  | .infinite s => if s then Int32.minValue else Int32.maxValue
  | .finite s m e => let (n, d) := fraction m e; saturate s (nearestUp n d)

/-- The 32-bit word toward zero; out of range is the nearest bound, NaN is 0. -/
def truncInt32 : Binary → Int32
  | .nan => 0
  | .infinite s => if s then Int32.minValue else Int32.maxValue
  | .finite s m e => let (n, d) := fraction m e; saturate s (n / d)

end Binary

end SoundLink
