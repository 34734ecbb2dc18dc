namespace SoundLink.Utf8

def isSecond (lead b : UInt8) : Bool :=
  if lead = 0xe0 then 0xa0 ≤ b && b ≤ 0xbf
  else if lead = 0xed then 0x80 ≤ b && b ≤ 0x9f
  else if lead = 0xf0 then 0x90 ≤ b && b ≤ 0xbf
  else if lead = 0xf4 then 0x80 ≤ b && b ≤ 0x8f
  else 0x80 ≤ b && b ≤ 0xbf

def isContinuation (b : UInt8) : Bool := 0x80 ≤ b && b ≤ 0xbf

def following (lead : UInt8) : Option Nat :=
  if lead < 0x80 then some 0
  else if 0xc2 ≤ lead && lead ≤ 0xdf then some 1
  else if 0xe0 ≤ lead && lead ≤ 0xef then some 2
  else if 0xf0 ≤ lead && lead ≤ 0xf4 then some 3
  else none

/-- The longest beginning of a character that the bytes after a leading byte continue. -/
def continuations (lead : UInt8) (count : Nat) : List UInt8 → List UInt8
  | [] => []
  | b :: rest =>
    if 0 < count && isSecond lead b then b :: (rest.takeWhile isContinuation).take (count - 1) else []

def leadBits (lead : UInt8) (count : Nat) : Nat :=
  if count = 0 then lead.toNat else lead.toNat % Nat.pow 2 (6 - count)

def character (lead : UInt8) (bytes : List UInt8) : Char :=
  Char.ofNat (bytes.foldl (fun n b ↦ n * 64 + b.toNat % 64) (leadBits lead bytes.length))

/-- The characters of a byte sequence, nothing standing for a faulty piece. -/
def pieces : List UInt8 → List (Option Char)
  | [] => []
  | lead :: rest =>
    match following lead with
    | none => none :: pieces rest
    | some count =>
      let bytes := continuations lead count rest
      (if bytes.length = count then some (character lead bytes) else none) :: pieces (rest.drop bytes.length)
termination_by bytes => bytes.length

def decode? (bytes : List UInt8) : Option String := ((pieces bytes).mapM id).map String.ofList

def decodeLossy (bytes : List UInt8) : String :=
  String.ofList ((pieces bytes).map fun c ↦ c.getD (Char.ofNat 0xfffd))

def encode (s : String) : List UInt8 := s.toUTF8.toList

end SoundLink.Utf8
