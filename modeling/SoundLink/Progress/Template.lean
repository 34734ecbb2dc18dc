namespace SoundLink

namespace Template

inductive Place
  | literal
  | closing
  | opening
  | key
  | alignment
  | width
  | style
  | otherStyle
  deriving DecidableEq, Repr

def isBlank (c : Char) : Bool := c = ' ' || c = '\t' || c = '\n' || c = '\x0c' || c = '\r'

/-- The place of the next character, if a character may stand here. A blank in a key makes text of
it. -/
def advance : Place → Char → Option Place
  | .literal, c => some (if c = '\x7b' then .opening else if c = '\x7d' then .closing else .literal)
  | .closing, c => if c = '\x7d' then some .literal else none
  | .opening, c =>
    if c = '\x7b' ∨ isBlank c then some .literal
    else if c = '\x7d' ∨ c = ':' then none
    else some .key
  | .key, c =>
    some (if isBlank c ∨ c = '\x7d' then .literal else if c = ':' then .alignment else .key)
  | .alignment, c =>
    if c = '<' ∨ c = '^' ∨ c = '>' ∨ c = '!' ∨ c.isDigit then some .width
    else if c = '.' then some .style
    else if c = '\x7d' then some .literal
    else none
  | .width, c =>
    if c = '!' ∨ c.isDigit then some .width
    else if c = '.' then some .style
    else if c = '\x7d' then some .literal
    else none
  | .style, c => some (if c = '/' then .otherStyle else if c = '\x7d' then .literal else .style)
  | .otherStyle, c => some (if c = '\x7d' then .literal else .otherStyle)

def misplaced (place : Place) : List Char → Option (Place × Char)
  | [] => none
  | c :: rest => match advance place c with
    | none => some (place, c)
    | some place => misplaced place rest

def check (template : String) : Except Char Unit :=
  match misplaced .literal template.toList with
  | none => .ok ()
  | some (_, c) => .error c

def sender : String := String.singleton (Char.ofNat 0xf048a)
  ++ " SEND [\x7bbar:30.cyan\x7d] \x7bpercent\x7d% (\x7bpos\x7d/\x7blen\x7d bytes) \x7bmsg\x7d"

def receiver : String := String.singleton (Char.ofNat 0xf04e6)
  ++ " RECV [\x7bbar:30.blue\x7d] \x7bpos\x7d bytes in \x7belapsed\x7d \x7bmsg\x7d"

end Template

end SoundLink
