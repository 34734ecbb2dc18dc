namespace SoundLink

/-- A number as it is spelled; digit lists hold `0` to `9` only. -/
structure Numeral where
  negative : Bool
  whole : List Char
  decimals : Option (List Char)
  /-- The sign, true for a minus, and the digits of the exponent. -/
  exponent : Option (Bool × List Char)
  deriving DecidableEq, Repr

/-- The code points of a text, surrogates included. -/
abbrev Points := List UInt32

inductive Json
  | null
  | bool (b : Bool)
  | number (n : Numeral)
  | text (points : Points)
  | list (items : List Json)
  | record (members : List (Points × Json))

namespace Points

def ofString (s : String) : Points := s.toList.map Char.val

def toChars? : Points → Option (List Char)
  | [] => some []
  | p :: ps => if h : p.isValidChar then (toChars? ps).map (⟨p, h⟩ :: ·) else none

def toString? (ps : Points) : Option String := ps.toChars?.map String.ofList

end Points

namespace Json

def string (s : String) : Json := .text (Points.ofString s)

def object (members : List (String × Json)) : Json :=
  .record (members.map fun m ↦ (Points.ofString m.1, m.2))

mutual

def depth : Json → Nat
  | .list items => depthItems items + 1
  | .record members => depthMembers members + 1
  | _ => 0

def depthItems : List Json → Nat
  | [] => 0
  | j :: rest => max j.depth (depthItems rest)

def depthMembers : List (Points × Json) → Nat
  | [] => 0
  | (_, j) :: rest => max j.depth (depthMembers rest)

end

end Json

end SoundLink
