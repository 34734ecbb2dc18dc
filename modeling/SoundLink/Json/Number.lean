import SoundLink.Json
import SoundLink.Binary.Decimal

namespace SoundLink.Numeral

def digitValue (c : Char) : Nat := c.toNat - 48

def value (ds : List Char) : Nat := ds.foldl (fun n c ↦ n * 10 + digitValue c) 0

def significandLimit : Nat := 18446744073709551615

/-- Appends digits to a significand while it stays within the limit; what is left over follows. -/
def accumulate (n : Nat) : List Char → Nat × List Char
  | [] => (n, [])
  | c :: cs =>
    let m := n * 10 + digitValue c
    if significandLimit < m then (n, c :: cs) else accumulate m cs

def natural? (n : Numeral) : Option Nat :=
  if n.negative || n.decimals.isSome || n.exponent.isSome then none
  else if value n.whole ≤ significandLimit then some (value n.whole) else none

def power (k : Nat) : Binary := Binary.round .double false (Nat.pow 10 k) 1

/-- Scales a double by a power of ten with one rounding for each factor of up to 308 places.
There is no result beyond the largest double. -/
def scale (x : Binary) (e : Int) : Option Binary :=
  if e.natAbs ≤ 308 then
    if 0 ≤ e then
      let y := Binary.mul .double x (power e.natAbs)
      if y.isInfinite then none else some y
    else some (Binary.div .double x (power e.natAbs))
  else if x.isZero then some x
  else if 0 ≤ e then none
  else scale (Binary.div .double x (power 308)) (e + 308)
termination_by e.natAbs
decreasing_by omega

/-- The double that a spelling stands for: the leading digits as one integer, rounded, then scaled
by the power of ten. It can be off by a unit in the last place when there are many digits. -/
def toBinary? (n : Numeral) : Option Binary :=
  let (m, dropped) := accumulate 0 n.whole
  let (m, unread) := accumulate m (n.decimals.getD [])
  let places := (n.decimals.getD []).length - unread.length
  let shift : Int := match n.exponent with
    | none => 0
    | some (negative, ds) => if negative then -(value ds : Int) else value ds
  let e := (dropped.length : Int) - places + shift
  (scale (Binary.ofNat .double m) e).map fun x ↦ if n.negative then x.neg else x

def ofNat (n : Nat) : Numeral := ⟨false, Nat.toDigits 10 n, none, none⟩

def ofInt (i : Int) : Numeral := ⟨i < 0, Nat.toDigits 10 i.natAbs, none, none⟩

/-- Spells a decimal with a point, or with an exponent when its first digit stands more than
sixteen places before the point or more than five behind it. -/
def ofDecimal (negative : Bool) (d : Decimal) : Numeral :=
  let ds := Nat.toDigits 10 d.digits
  let point : Int := ds.length + d.exponent
  if 0 ≤ d.exponent && point ≤ 16 then
    ⟨negative, ds ++ List.replicate d.exponent.toNat '0', some ['0'], none⟩
  else if 0 < point && point ≤ 16 then
    ⟨negative, ds.take point.toNat, some (ds.drop point.toNat), none⟩
  else if -5 < point && point ≤ 0 then
    ⟨negative, ['0'], some (List.replicate (-point).toNat '0' ++ ds), none⟩
  else
    let e := point - 1
    let tail := if ds.length = 1 then none else some (ds.drop 1)
    ⟨negative, ds.take 1, tail, some (e < 0, Nat.toDigits 10 e.natAbs)⟩

def ofBinary? : Binary → Option Numeral
  | .finite s m e => some (ofDecimal s (Binary.shortest .double .even m e))
  | _ => none

def chars (n : Numeral) : List Char :=
  (if n.negative then ['-'] else []) ++ n.whole
    ++ (match n.decimals with
      | none => []
      | some ds => '.' :: ds)
    ++ (match n.exponent with
      | none => []
      | some (negative, ds) => 'e' :: (if negative then '-' :: ds else ds))

end SoundLink.Numeral
