import SoundLink.Binary

namespace SoundLink

structure Decimal where
  digits : Nat
  exponent : Int
  deriving DecidableEq, Repr

inductive Tie
  | up
  | even
  deriving DecidableEq, Repr

namespace Decimal

def fraction : Decimal → Nat × Nat
  | ⟨n, .ofNat e⟩ => (n * Nat.pow 10 e, 1)
  | ⟨n, .negSucc e⟩ => (n, Nat.pow 10 (e + 1))

def trim (d : Decimal) : Decimal :=
  if h : d.digits % 10 = 0 ∧ d.digits ≠ 0 then trim ⟨d.digits / 10, d.exponent + 1⟩ else d
termination_by d.digits
decreasing_by omega

end Decimal

namespace Binary

/-- The reals that round to `m * 2 ^ e`: those from `lower` to `upper`, in units of `2 ^ (e - 2)`.
Right below a power of two the data lie twice as close as above it. -/
structure Neighbourhood where
  lower : Nat
  upper : Nat
  closed : Bool

def neighbourhood (f : Format) (m : Nat) (e : Int) : Neighbourhood :=
  let gap := if m = f.hidden && f.minExponent < e then 1 else 2
  ⟨4 * m - gap, 4 * m + 2, m % 2 = 0⟩

def Neighbourhood.holds (r : Neighbourhood) (e : Int) (a b : Nat) : Bool :=
  let (n, d) := scaled a b (e - 2)
  if r.closed then r.lower * d ≤ n && n ≤ r.upper * d else r.lower * d < n && n < r.upper * d

/-- The candidates of the grid of `10 ^ k` next to `num / den`, the preferred one first. -/
def candidates (tie : Tie) (num den : Nat) (k : Int) : List Decimal :=
  let (n, d) := match k with
    | .ofNat k => (num, den * Nat.pow 10 k)
    | .negSucc k => (num * Nat.pow 10 (k + 1), den)
  let low := n / d
  let twice := 2 * (n % d)
  let upFirst := d < twice || (twice == d && (tie == .up || low % 2 == 1))
  if upFirst then [⟨low + 1, k⟩, ⟨low, k⟩] else [⟨low, k⟩, ⟨low + 1, k⟩]

def decimalExponent (num den : Nat) : Nat → Int → Int
  | 0, k => k
  | fuel + 1, k =>
    let (a, b) := Decimal.fraction ⟨1, k⟩
    if num * b < a * den then decimalExponent num den fuel (k - 1)
    else
      let (a, b) := Decimal.fraction ⟨1, k + 1⟩
      if a * den ≤ num * b then decimalExponent num den fuel (k + 1) else k

def search (tie : Tie) (r : Neighbourhood) (e : Int) (num den : Nat) : Nat → Int → Decimal
  | 0, k => ⟨nearestEven num den, k⟩
  | fuel + 1, k =>
    let hits := (candidates tie num den k).filter fun c ↦
      let (a, b) := c.fraction
      r.holds e a b
    match hits with
    | c :: _ => c
    | [] => search tie r e num den fuel (k - 1)

/-- The shortest decimal that reads back as the positive datum `m * 2 ^ e`; of several the
nearest, and of two equally near the one `tie` prefers. -/
def shortest (f : Format) (tie : Tie) (m : Nat) (e : Int) : Decimal :=
  if m = 0 then ⟨0, 0⟩
  else
    let (num, den) := fraction m e
    let guess : Int := (((num.log2 : Int) - den.log2) * 30103).fdiv 100000
    let k := decimalExponent num den 4 guess
    (search tie (neighbourhood f m e) e num den 20 k).trim

def digitText (n : Nat) : String := String.ofList (Nat.toDigits 10 n)

def zeros (n : Nat) : String := String.ofList (List.replicate n '0')

def pointed (digits scale : Nat) : String :=
  let whole := digitText (digits / Nat.pow 10 scale)
  if scale = 0 then whole
  else
    let rest := digitText (digits % Nat.pow 10 scale)
    whole ++ "." ++ zeros (scale - rest.length) ++ rest

def places (n : Nat) (negative : Bool) (num den : Nat) : String :=
  (if negative then "-" else "") ++ pointed (nearestEven (num * Nat.pow 10 n) den) n

def fixedText (n : Nat) : Binary → String
  | .nan => "NaN"
  | .infinite s => if s then "-inf" else "inf"
  | .finite s m e => let (a, b) := fraction m e; places n s a b

def plainDigits : Decimal → String
  | ⟨n, .ofNat e⟩ => if n = 0 then "0" else digitText n ++ zeros e
  | ⟨n, .negSucc e⟩ => pointed n (e + 1)

def text : Binary → String
  | .nan => "NaN"
  | .infinite s => if s then "-inf" else "inf"
  | .finite s m e => (if s then "-" else "") ++ plainDigits (shortest .double .up m e)

end Binary

namespace Hex

def digit (n : Nat) : Char := if n < 10 then Char.ofNat (48 + n) else Char.ofNat (87 + n)

/-- The hexadecimal digits of a number, at least `width` of them, after `0x`. -/
def text (width n : Nat) : String :=
  let ds := Nat.toDigits 16 n
  "0x" ++ String.ofList (List.replicate (width - ds.length) '0' ++ ds)

end Hex

end SoundLink
