import SoundLink.Json

namespace SoundLink

inductive Token
  | braceOpen
  | braceClose
  | bracketOpen
  | bracketClose
  | comma
  | colon
  | null
  | bool (b : Bool)
  | number (n : Numeral)
  | text (points : Points)
  deriving DecidableEq, Repr

namespace Token

def isBlank (c : Char) : Bool := c = ' ' || c = '\t' || c = '\n' || c = '\r'

def hexDigit? (c : Char) : Option UInt32 :=
  if '0' ≤ c && c ≤ '9' then some (c.val - 48)
  else if 'a' ≤ c && c ≤ 'f' then some (c.val - 87)
  else if 'A' ≤ c && c ≤ 'F' then some (c.val - 55)
  else none

def unit? (a b c d : Char) : Option UInt32 := do
  return (((← hexDigit? a) * 16 + (← hexDigit? b)) * 16 + (← hexDigit? c)) * 16 + (← hexDigit? d)

def escape? : Char → Option UInt32
  | '"' => some 34
  | '\\' => some 92
  | '/' => some 47
  | 'b' => some 8
  | 'f' => some 12
  | 'n' => some 10
  | 'r' => some 13
  | 't' => some 9
  | _ => none

/-- The units of a text up to its closing quote, and what follows. Control characters must be
escaped. -/
def units? : List Char → Option (Points × List Char)
  | [] => none
  | '"' :: rest => some ([], rest)
  | '\\' :: 'u' :: a :: b :: c :: d :: rest => do
    let u ← unit? a b c d
    let (us, rest) ← units? rest
    return (u :: us, rest)
  | '\\' :: c :: rest => do
    let u ← escape? c
    let (us, rest) ← units? rest
    return (u :: us, rest)
  | c :: rest => do
    if c.val < 32 || c = '\\' then none
    else
      let (us, rest) ← units? rest
      return (c.val :: us, rest)

def joinSurrogates : Points → Points
  | h :: l :: rest =>
    if 0xd800 ≤ h && h < 0xdc00 && 0xdc00 ≤ l && l < 0xe000 then
      (0x10000 + (h - 0xd800) * 0x400 + (l - 0xdc00)) :: joinSurrogates rest
    else h :: joinSurrogates (l :: rest)
  | us => us

def digits (cs : List Char) : List Char × List Char := (cs.takeWhile Char.isDigit, cs.dropWhile Char.isDigit)

def decimals? : List Char → Option (Option (List Char) × List Char)
  | '.' :: cs => match digits cs with
    | ([], _) => none
    | (ds, rest) => some (some ds, rest)
  | cs => some (none, cs)

def exponentDigits? (negative : Bool) (cs : List Char) : Option (Option (Bool × List Char) × List Char) :=
  match digits cs with
  | ([], _) => none
  | (ds, rest) => some (some (negative, ds), rest)

def exponent? : List Char → Option (Option (Bool × List Char) × List Char)
  | c :: cs =>
    if c = 'e' || c = 'E' then match cs with
      | '+' :: cs => exponentDigits? false cs
      | '-' :: cs => exponentDigits? true cs
      | cs => exponentDigits? false cs
    else some (none, c :: cs)
  | [] => some (none, [])

/-- A number without its sign: a zero takes no further digits before the point. -/
def numeral? (negative : Bool) (cs : List Char) : Option (Numeral × List Char) := do
  let (whole, rest) := digits cs
  if whole = [] || (whole.head? = some '0' && 1 < whole.length) then none
  else
    let (decimals, rest) ← decimals? rest
    let (exponent, rest) ← exponent? rest
    return (⟨negative, whole, decimals, exponent⟩, rest)

def first? : List Char → Option (Token × List Char)
  | '\x7b' :: rest => some (.braceOpen, rest)
  | '\x7d' :: rest => some (.braceClose, rest)
  | '[' :: rest => some (.bracketOpen, rest)
  | ']' :: rest => some (.bracketClose, rest)
  | ',' :: rest => some (.comma, rest)
  | ':' :: rest => some (.colon, rest)
  | '"' :: rest => (units? rest).map fun (us, rest) ↦ (.text (joinSurrogates us), rest)
  | 'n' :: 'u' :: 'l' :: 'l' :: rest => some (.null, rest)
  | 't' :: 'r' :: 'u' :: 'e' :: rest => some (.bool true, rest)
  | 'f' :: 'a' :: 'l' :: 's' :: 'e' :: rest => some (.bool false, rest)
  | '-' :: rest => (numeral? true rest).map fun (n, rest) ↦ (.number n, rest)
  | cs => (numeral? false cs).map fun (n, rest) ↦ (.number n, rest)

/-- All tokens of a text. A token takes at least one character, so `fuel` at the length of the
text suffices. -/
def allWithin : Nat → List Char → Option (List Token)
  | _, [] => some []
  | 0, _ => none
  | fuel + 1, c :: cs =>
    if isBlank c then allWithin fuel cs
    else match first? (c :: cs) with
      | none => none
      | some (t, rest) => (allWithin fuel rest).map (t :: ·)

def all? (cs : List Char) : Option (List Token) := allWithin cs.length cs

end Token

end SoundLink
