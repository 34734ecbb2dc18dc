import SoundLink.Mac.Header

namespace SoundLink

structure SourceState where
  expected : UInt8 := 0
  held : List UInt8 := []
  lastTaken : Option UInt8 := none
  deriving DecidableEq

inductive Acceptance
  /-- Taken, with the payload that it completes. -/
  | accepted (payload : Option (List UInt8))
  /-- Taken before, so that its acknowledgement must have been lost. -/
  | duplicate
  | dropped
  deriving DecidableEq

namespace SourceState

def take (s : SourceState) (h : MacHeader) (part : List UInt8) : SourceState × Acceptance :=
  if h.isLast then (⟨0, [], some h.index⟩, .accepted (some (s.held ++ part)))
  else (⟨h.index + 1, s.held ++ part, some h.index⟩, .accepted none)

def accept (s : SourceState) (h : MacHeader) (part : List UInt8) : SourceState × Acceptance :=
  if h.index = 0 ∧ s.held ≠ [] then take { s with held := [] } h part
  else if h.index = s.expected then s.take h part
  else (s, if s.lastTaken = some h.index then .duplicate else .dropped)

end SourceState

structure Reassembler where
  sources : Vector SourceState 8

namespace Reassembler

def empty : Reassembler := ⟨Vector.replicate 8 {}⟩

/-- The place of an address, of which the low three bits count. -/
def slot (address : UInt8) : Fin 8 := Fin.ofNat 8 address.toNat

def accept (r : Reassembler) (h : MacHeader) (part : List UInt8) : Reassembler × Acceptance :=
  let i := slot h.source
  let (s, a) := r.sources[i].accept h part
  (⟨r.sources.set i s⟩, a)

end Reassembler

end SoundLink
