import SoundLink.Progress.Template

namespace SoundLink

structure Bar where
  length : UInt64
  position : UInt64
  message : String
  deriving DecidableEq

inductive ProgressError
  | unknown (id : String)
  | duplicate (id : String)
  | badTemplate (id : String) (c : Char)
  deriving DecidableEq

def ProgressError.onTemplate (id : String) : String := s!"Bad template for '{id}': "

def ProgressError.message : ProgressError → String
  | .unknown id => s!"Progress bar '{id}' not found"
  | .duplicate id => s!"Progress bar '{id}' already exists"
  | .badTemplate id c => ProgressError.onTemplate id ++ "unexpected character " ++ String.singleton c

structure Progress where
  bars : List (String × Bar) := []

namespace Progress

def find? (p : Progress) (id : String) : Option Bar := p.bars.lookup id

def create (p : Progress) (id : String) (total : UInt64) (template message : String) :
    Except ProgressError Progress :=
  if (p.find? id).isSome then .error (.duplicate id)
  else match Template.check template with
    | .error c => .error (.badTemplate id c)
    | .ok () => .ok ⟨p.bars ++ [(id, ⟨total, 0, message⟩)]⟩

def change (p : Progress) (id : String) (f : Bar → Bar) : Except ProgressError Progress :=
  match p.find? id with
  | none => .error (.unknown id)
  | some _ => .ok ⟨p.bars.map fun (name, bar) ↦ (name, if name = id then f bar else bar)⟩

def grow (p : Progress) (id : String) (n : UInt64) : Except ProgressError Progress :=
  p.change id fun bar ↦ { bar with length := bar.length + n }

/-- Moves the position, which may pass the length. -/
def advance (p : Progress) (id : String) (n : UInt64) : Except ProgressError Progress :=
  p.change id fun bar ↦ { bar with position := bar.position + n }

def setMessage (p : Progress) (id message : String) : Except ProgressError Progress :=
  p.change id fun bar ↦ { bar with message }

/-- Moves the position to the length; the bar stays. -/
def finish (p : Progress) (id message : String) : Except ProgressError Progress :=
  p.change id fun bar ↦ { bar with position := bar.length, message }

def position (p : Progress) (id : String) : Except ProgressError UInt64 :=
  match p.find? id with
  | some bar => .ok bar.position
  | none => .error (.unknown id)

/-- Finishes all bars, which are gone then. -/
def finishAll (_ : Progress) : Progress := {}

end Progress

end SoundLink
