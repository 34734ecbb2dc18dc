namespace SoundLink

/-- A condition that ends the program instead of being reported to the caller. -/
inductive Fault
  | divisionByZero
  | emptyRange
  | overflow
  /-- A period that no clock measures. -/
  | endlessPeriod
  deriving DecidableEq, Repr

inductive Failure (ε : Type)
  | error (e : ε)
  | fault (f : Fault)
  deriving DecidableEq, Repr

abbrev Outcome (ε α : Type) := Except (Failure ε) α

variable {ε δ α : Type}

def Failure.map (f : ε → δ) : Failure ε → Failure δ
  | .error e => .error (f e)
  | .fault x => .fault x

namespace Outcome

def fail (e : ε) : Outcome ε α := .error (.error e)

def fault (f : Fault) : Outcome ε α := .error (.fault f)

def lift (f : ε → δ) (o : Outcome ε α) : Outcome δ α := o.mapError (Failure.map f)

end Outcome

end SoundLink
