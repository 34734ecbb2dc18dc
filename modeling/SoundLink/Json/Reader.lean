import SoundLink.Json.Lexer

namespace SoundLink.Json

/-- An open list or record that waits for the value being read; what it holds is newest first. -/
inductive Frame
  | list (items : List Json)
  | record (members : List (Points × Json)) (key : Points)

inductive Focus
  | value
  | listStart
  | listNext (items : List Json)
  | recordStart
  | recordKey (members : List (Points × Json))
  | colon (members : List (Points × Json)) (key : Points)
  | recordNext (members : List (Points × Json))
  | finished (j : Json)

abbrev Machine := List Frame × Focus

def deliver (j : Json) : List Frame → Machine
  | [] => ([], .finished j)
  | .list items :: stack => (stack, .listNext (j :: items))
  | .record members key :: stack => (stack, .recordNext ((key, j) :: members))

def begin (stack : List Frame) : Token → Option Machine
  | .braceOpen => some (stack, .recordStart)
  | .bracketOpen => some (stack, .listStart)
  | .null => some (deliver .null stack)
  | .bool b => some (deliver (.bool b) stack)
  | .number n => some (deliver (.number n) stack)
  | .text ps => some (deliver (.text ps) stack)
  | _ => none

def advance : Machine → Token → Option Machine
  | (stack, .value), t => begin stack t
  | (stack, .listStart), .bracketClose => some (deliver (.list []) stack)
  | (stack, .listStart), t => begin (.list [] :: stack) t
  | (stack, .listNext items), .comma => some (.list items :: stack, .value)
  | (stack, .listNext items), .bracketClose => some (deliver (.list items.reverse) stack)
  | (stack, .recordStart), .braceClose => some (deliver (.record []) stack)
  | (stack, .recordStart), .text key => some (stack, .colon [] key)
  | (stack, .recordKey members), .text key => some (stack, .colon members key)
  | (stack, .colon members key), .colon => some (.record members key :: stack, .value)
  | (stack, .recordNext members), .comma => some (stack, .recordKey members)
  | (stack, .recordNext members), .braceClose => some (deliver (.record members.reverse) stack)
  | _, _ => none

def ofTokens? (ts : List Token) : Option Json :=
  match ts.foldlM advance ([], .value) with
  | some ([], .finished j) => some j
  | _ => none

def read? (s : String) : Option Json := Token.all? s.toList >>= ofTokens?

end SoundLink.Json
