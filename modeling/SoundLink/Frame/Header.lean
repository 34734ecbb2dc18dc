import SoundLink.Binary.Decimal

namespace SoundLink

inductive DecodeError
  | invalidSymbol (codeword : UInt16)
  | emptyFrame
  | unexpectedIndex (expected got : UInt8)
  | crcMismatch (computed received : UInt8)
  deriving DecidableEq, Repr

def DecodeError.message : DecodeError → String
  | .invalidSymbol w => "invalid line code symbol " ++ Hex.text 3 w.toNat
  | .emptyFrame => "frame header declares an empty payload"
  | .unexpectedIndex expected got => s!"frame index {got} does not follow {expected}"
  | .crcMismatch computed received =>
    "CRC mismatch: computed " ++ Hex.text 2 computed.toNat ++ ", received " ++ Hex.text 2 received.toNat

structure FrameHeader where
  size : UInt8
  isLast : Bool
  index : UInt8
  deriving DecidableEq, Repr

namespace FrameHeader

/-- Only the low seven bits of a size are kept. -/
def ofSize (size : Nat) (isLast : Bool) (index : UInt8) : FrameHeader :=
  ⟨UInt8.ofNat size &&& 0x7f, isLast, index⟩

def bytes (h : FrameHeader) : List UInt8 := [(if h.isLast then 0x80 else 0) ||| (h.size &&& 0x7f), h.index]

def parse (first second : UInt8) : Except DecodeError FrameHeader :=
  if first &&& 0x7f = 0 then .error .emptyFrame else .ok ⟨first &&& 0x7f, first &&& 0x80 ≠ 0, second⟩

end FrameHeader

end SoundLink
