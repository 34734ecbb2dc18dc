import SoundLink.Error

namespace SoundLink

inductive FrameKind
  | data
  | ack
  deriving DecidableEq, Repr

structure MacHeader where
  source : UInt8
  destination : UInt8
  kind : FrameKind
  isLast : Bool
  index : UInt8
  deriving DecidableEq, Repr

namespace MacHeader

def data (source destination index : UInt8) (isLast : Bool) : MacHeader :=
  ⟨source, destination, .data, isLast, index⟩

def acknowledgement (h : MacHeader) : MacHeader := ⟨h.destination, h.source, .ack, h.isLast, h.index⟩

/-- Only the low three bits of an address are kept. -/
def bytes (h : MacHeader) : List UInt8 :=
  [(h.source &&& 7) <<< 5 ||| (h.destination &&& 7) <<< 2 ||| (if h.kind = .ack then 2 else 0)
    ||| (if h.isLast then 1 else 0), h.index]

def frame (h : MacHeader) (payload : List UInt8) : List UInt8 := h.bytes ++ payload

def parse : List UInt8 → Except MacError (MacHeader × List UInt8)
  | first :: index :: payload =>
    let kind := if first &&& 2 = 0 then .data else .ack
    .ok (⟨first >>> 5, (first >>> 2) &&& 7, kind, first &&& 1 ≠ 0, index⟩, payload)
  | short => .error (.malformedHeader short.length)

end MacHeader

end SoundLink
