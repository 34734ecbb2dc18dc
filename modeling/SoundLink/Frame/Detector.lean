import SoundLink.Fixed

namespace SoundLink

/-- A preamble against which samples are matched, its last sample first. -/
structure MatchedFilter where
  taps : List Sample
  span : Nat
  span_eq : span = taps.length

namespace MatchedFilter

def ofPreamble (preamble : List Sample) : MatchedFilter := ⟨preamble.reverse, preamble.reverse.length, rfl⟩

/-- The sum of the products of two lists in units of full scale, each product rounded down. -/
def correlate (sum : Int64) : List Sample → List Sample → Int64
  | a :: as, b :: bs => correlate (sum + (a.toInt64 * b.toInt64) >>> 31) as bs
  | _, _ => sum

def power (f : MatchedFilter) (newest : List Sample) : Fixed := ⟨(correlate 0 newest f.taps >>> 15).toInt32⟩

end MatchedFilter

/-- The newest samples of a stream, the last first. -/
structure Window where
  samples : List Sample
  size : Nat
  size_eq : size = samples.length

namespace Window

def empty : Window := ⟨[], 0, List.length_nil.symm⟩

def push (span : Nat) (w : Window) (s : Sample) : Window :=
  if w.size < span then ⟨s :: w.samples, w.size + 1, by simp [w.size_eq]⟩
  else ⟨(s :: w.samples).take span, min span (w.size + 1), by simp [w.size_eq]⟩

end Window

structure Candidate where
  left : Fixed
  peak : Fixed
  right : Option Fixed
  /-- The samples from the peak on, the last first. -/
  since : List Sample
  distance : Nat

namespace Candidate

def start (left peak : Fixed) (s : Sample) : Candidate := ⟨left, peak, none, [s], 0⟩

def follow (c : Candidate) (power : Fixed) (s : Sample) : Candidate :=
  { c with right := some (c.right.getD power), since := s :: c.since, distance := c.distance + 1 }

end Candidate

structure Detector where
  window : Window
  /-- The power of the last sample, 0 before the window is full. -/
  previous : Fixed
  candidate : Option Candidate

namespace Detector

def start : Detector := ⟨.empty, 0, none⟩

def best (d : Detector) : Fixed := (d.candidate.map Candidate.peak).getD 0

def push (f : MatchedFilter) (threshold : Fixed) (d : Detector) (s : Sample) : Detector × Option Fixed :=
  let window := d.window.push f.span s
  if window.size < f.span then ({ d with window }, none)
  else
    let power := f.power window.samples
    if d.best < power ∧ threshold < power then
      (⟨window, power, some (.start d.previous power s)⟩, some power)
    else (⟨window, power, d.candidate.map (·.follow power s)⟩, none)

/-- The candidate that no stronger one can replace any more. -/
def settled (f : MatchedFilter) (d : Detector) : Option Candidate := d.candidate.filter (f.span ≤ ·.distance)

end Detector

/-- How far before the sampled maximum the true peak lies, in samples, from -1 to 1. -/
def estimateAdjustment (left peak right : Fixed) : Fixed :=
  let near := if right < left then left else right
  let far := if right < left then right else left
  if peak + near ≤ 0 then 0
  else
    let ratio := (peak + far).quotient (peak + near)
    Fixed.within (-1) 1 (if right < left then 1 - ratio else ratio - 1)

end SoundLink
