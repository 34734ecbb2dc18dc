import SoundLink.Binary.Decimal
import SoundLink.Json.Number

namespace SoundLink.Json

inductive Layout
  | line
  | indented
  deriving DecidableEq

/-- A code point inside a text. A surrogate has no character and is escaped, as are quotes,
backslashes and control characters. -/
def escape (p : UInt32) : List Char :=
  if p = 34 then ['\\', '"']
  else if p = 92 then ['\\', '\\']
  else if p = 8 then ['\\', 'b']
  else if p = 12 then ['\\', 'f']
  else if p = 10 then ['\\', 'n']
  else if p = 13 then ['\\', 'r']
  else if p = 9 then ['\\', 't']
  else if p < 32 || (0xd800 ≤ p && p < 0xe000) then
    let n := p.toNat
    ['\\', 'u', Hex.digit (n / 4096), Hex.digit (n / 256 % 16), Hex.digit (n / 16 % 16), Hex.digit (n % 16)]
  else [Char.ofNat p.toNat]

def quoted (ps : Points) : List Char := '"' :: ps.flatMap escape ++ ['"']

def Layout.newline : Layout → Nat → List Char
  | .line, _ => []
  | .indented, level => '\n' :: List.replicate (2 * level) ' '

def Layout.colon : Layout → List Char
  | .line => [':']
  | .indented => [':', ' ']

variable (l : Layout)

mutual

def chars (level : Nat) : Json → List Char
  | .null => ['n', 'u', 'l', 'l']
  | .bool true => ['t', 'r', 'u', 'e']
  | .bool false => ['f', 'a', 'l', 's', 'e']
  | .number n => n.chars
  | .text ps => quoted ps
  | .list [] => ['[', ']']
  | .list (j :: items) =>
    '[' :: l.newline (level + 1) ++ j.chars (level + 1) ++ itemChars (level + 1) items
      ++ l.newline level ++ [']']
  | .record [] => ['\x7b', '\x7d']
  | .record ((key, j) :: members) =>
    '\x7b' :: l.newline (level + 1) ++ quoted key ++ l.colon ++ j.chars (level + 1)
      ++ memberChars (level + 1) members ++ l.newline level ++ ['\x7d']

def itemChars (level : Nat) : List Json → List Char
  | [] => []
  | j :: items => ',' :: l.newline level ++ j.chars level ++ itemChars level items

def memberChars (level : Nat) : List (Points × Json) → List Char
  | [] => []
  | (key, j) :: members =>
    ',' :: l.newline level ++ quoted key ++ l.colon ++ j.chars level ++ memberChars level members

end

def write (j : Json) : String := String.ofList (j.chars l 0)

end SoundLink.Json
