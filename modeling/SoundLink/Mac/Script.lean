import SoundLink.Mac.Sending

namespace SoundLink

inductive Reply
  | ack
  | packet (bytes : List UInt8)
  | disturbance
  | closing
  deriving DecidableEq

inductive Interruption
  | disturbance
  | closing
  deriving DecidableEq

structure Script where
  /-- For the first data frames, what breaks them off. -/
  interruptions : List Interruption := []
  /-- For each data frame, what follows it; without an entry its acknowledgement does. -/
  replies : List (List Reply) := []
  played : List (List UInt8) := []

namespace Script

def fault : DecodeError := .emptyFrame

def incidents (carry : List UInt8 → List Incident) (frame : List UInt8) : Reply → List Incident
  | .ack => match MacHeader.parse frame with
    | .ok (h, _) => carry h.acknowledgement.bytes
    | .error _ => []
  | .packet bytes => carry bytes
  | .disturbance => [.disturbance fault]
  | .closing => [.closing]

def play (carry : List UInt8 → List Incident) (s : Script) (frame : List UInt8) : Script × Passage :=
  let replies := s.replies.headD [.ack]
  let later := { s with replies := s.replies.tail }
  match s.interruptions with
  | .disturbance :: rest => ({ later with interruptions := rest }, .disturbed fault)
  | .closing :: rest => ({ later with interruptions := rest }, .cutOff)
  | [] => ({ later with played := frame :: s.played }, .played (replies.flatMap (incidents carry frame)))

/-- Follows a script, packets being carried to the station; nobody reacts to acknowledgements. -/
def medium (carry : List UInt8 → List Incident) : Medium Script where
  play := play carry
  answer s ack := ({ s with played := ack :: s.played }, [])

end Script

end SoundLink
