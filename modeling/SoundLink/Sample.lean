import SoundLink.Binary

namespace SoundLink

/-- A full-scale sample, from silence at 0 to the loudest words of either sign. -/
abbrev Sample := Int32

namespace Sample

def fullScale : Binary := Binary.ofNat .double 2147483647

/-- The sample of a level in `[-1, 1]`, toward zero; a level outside is cut off. -/
def ofLevel (level : Binary) : Sample :=
  let one := Binary.ofNat .single 1
  let cut := if level.lt one.neg then one.neg else if one.lt level then one else level
  (Binary.mul .double (cut.convert .double) fullScale).truncInt32

/-- The level of a sample in single precision, rounded by way of double precision. -/
def level (s : Sample) : Binary :=
  (Binary.div .double (Binary.ofInt .double s.toInt) fullScale).convert .single

def peak (samples : List Sample) : Binary :=
  samples.foldl (fun top s ↦ let l := s.level.abs; if top.lt l then l else top) (Binary.zero .single)

end Sample

namespace Preamble

def length (ramp : Nat) : Nat := 2 * ramp * (ramp + 1)

/-- The width of each pulse: 1 up to the ramp, and back. -/
def widths (ramp : Nat) : List Nat :=
  let climb := (List.range ramp).map (· + 1)
  climb ++ climb.reverse

def pulse (amplitude : Sample) (width : Nat) : List Sample :=
  List.replicate width amplitude ++ List.replicate width (-amplitude)

def samples (ramp : Nat) (amplitude : Sample) : List Sample := (widths ramp).flatMap (pulse amplitude)

end Preamble

end SoundLink
