import SoundLink.Mac.Sending

namespace SoundLink

inductive Move
  | packet (bytes : List UInt8)
  | closing
  | meet (o : Occurrence)
  | collect
  deriving DecidableEq

def Notice.isAttempt : Notice → Bool
  | .attempt _ => true
  | _ => false

structure Dispatch where
  station : Station
  bytes : List UInt8
  standing : Standing
  handed : List (List UInt8) := []

def Station.bystand (s : Station) : Move → Station
  | .packet bytes => (s.handle bytes).1
  | .closing => s.close
  | .meet _ | .collect => s

namespace Dispatch

def start (s : Station) (h : MacHeader) (part : List UInt8) : Dispatch where
  station := { s with awaiting := some (h.destination, h.index), acks := s.acks.clear }
  bytes := h.frame part
  standing := (Transmission.proceed s.closed ⟨h.destination, h.index, s.maxRetries, .free, 0, 0⟩).1

def occur (x : Dispatch) (o : Occurrence) : Dispatch :=
  match x.standing with
  | .ended _ => x
  | .going t =>
    let (standing, notices) := t.step x.station.closed o
    { x with
      standing
      handed := x.handed ++ List.replicate (notices.countP Notice.isAttempt) x.bytes }

/-- Takes an acknowledgement that has arrived, if it is being waited for. -/
def collect (x : Dispatch) : Dispatch :=
  match x.standing, x.station.acks.pending with
  | .going t, some i =>
    if t.waiting = .acknowledgement then
      { x with station.acks := x.station.acks.clear }.occur (.acknowledged i)
    else x
  | _, _ => x

def move (x : Dispatch) : Move → Dispatch
  | .meet (.acknowledged _) => x
  | .meet o => x.occur o
  | .collect => x.collect
  | m => { x with station := x.station.bystand m }

def run (x : Dispatch) (moves : List Move) : Dispatch := moves.foldl move x

end Dispatch

inductive Errand
  | between (station : Station) (frames : List (MacHeader × List UInt8))
  | underway (x : Dispatch) (frames : List (MacHeader × List UInt8))
  | returned (station : Station) (result : Except MacError Unit)

inductive Turn
  /-- The sender leaves a frame that has ended, or begins the next one. -/
  | advance
  | move (m : Move)
  deriving DecidableEq

namespace Errand

def start (s : Station) (destination : UInt8) (payload : List UInt8) : Errand :=
  if Config.maxAddress < destination.toNat then .returned s (.error (.invalidAddress destination))
  else if payload.isEmpty then .returned s (.ok ())
  else .between s (s.frames destination payload)

def station : Errand → Station
  | .between s _ | .returned s _ => s
  | .underway x _ => x.station

/-- No acknowledgement is waited for once a frame has ended. -/
def advance : Errand → Errand
  | .between s [] => .returned s (.ok ())
  | .between s ((h, part) :: frames) => .underway (.start s h part) frames
  | .underway x frames => match x.standing with
    | .going _ => .underway x frames
    | .ended (.ok ()) => .between { x.station with awaiting := none } frames
    | .ended (.error e) => .returned { x.station with awaiting := none } (.error e)
  | .returned s result => .returned s result

def turn : Errand → Turn → Errand
  | y, .advance => y.advance
  | .between s frames, .move m => .between (s.bystand m) frames
  | .underway x frames, .move m => .underway (x.move m) frames
  | .returned s result, .move m => .returned (s.bystand m) result

def run (y : Errand) (turns : List Turn) : Errand := turns.foldl turn y

end Errand

end SoundLink
