import SoundLink.Frame.Detector
import SoundLink.Frame.Modulator

namespace SoundLink

/-- Reads bits from samples that lie between those of the stream. -/
structure Slicer where
  last : Fixed
  /-- The way from one sample to the next at which a sample is read. -/
  phase : Fixed
  sum : Fixed
  tick : Nat
  codeword : UInt16
  bits : Nat

namespace Slicer

def start (last phase : Fixed) : Slicer := ⟨last, phase, 0, 0, 0, 0⟩

/-- Takes a sample; a codeword of ten bits is handed out when it is complete. A negative sum is a
one, and bits come lowest first. -/
def push (size : Nat) (r : Slicer) (s : Sample) : Slicer × Option UInt16 :=
  let current := Fixed.ofSample s
  let sum := r.sum + Fixed.lerp r.last current r.phase
  if r.tick + 1 < size then ({ r with last := current, sum, tick := r.tick + 1 }, none)
  else
    let codeword := if sum < 0 then r.codeword ||| (1 <<< UInt16.ofNat r.bits) else r.codeword
    if r.bits + 1 < LineCode.wordBits then
      (⟨current, r.phase, 0, 0, codeword, r.bits + 1⟩, none)
    else (.start current r.phase, some codeword)

end Slicer

inductive Stage
  | header (first : Option UInt8)
  | payload (header : FrameHeader) (chunk : List UInt8) (crc : UInt8)
  | checksum (header : FrameHeader) (chunk : List UInt8) (crc : UInt8)
  deriving DecidableEq

inductive Report
  | candidate (power : Fixed)
  | locked (peak left right adjustment : Fixed)
  | byte (b : UInt8) (stage : Stage)
  /-- A packet starts and drops the bytes of one that was not finished. -/
  | restarted (dropped : Nat)
  | header (h : FrameHeader)
  | frame (index : UInt8) (size : Nat)
  | packet (bytes : List UInt8)
  | failed (e : DecodeError)
  deriving DecidableEq

inductive Event
  | packet (bytes : List UInt8)
  | error (e : DecodeError)
  deriving DecidableEq

def Report.event? : Report → Option Event
  | .packet bytes => some (.packet bytes)
  | .failed e => some (.error e)
  | _ => none

inductive Phase
  | search (d : Detector)
  | extract (r : Slicer) (stage : Stage)

structure Demodulator where
  filter : MatchedFilter
  threshold : Fixed
  size : Nat
  headerSize : Nat
  crc : Crc

def Config.Phy.demodulator (p : Config.Phy) : Demodulator where
  filter := .ofPreamble p.preambleSamples
  threshold := .ofBinary p.preamble.threshold
  size := p.carrier.size.toNat
  headerSize := p.carrier.headerSize.toNat
  crc := .ofPolynomial p.crcPolynomial

namespace Demodulator

structure State where
  phase : Phase
  packet : List UInt8
  lastIndex : Option UInt8

def State.initial : State := ⟨.search .start, [], none⟩

variable (d : Demodulator)

/-- Whether a frame with an index may follow; index 0 always starts anew. -/
def follows (lastIndex : Option UInt8) (index : UInt8) : Except DecodeError Unit :=
  let expected := (lastIndex.map (· + 1)).getD 0
  if index = 0 ∨ index = expected then .ok () else .error (.unexpectedIndex expected index)

def receive (σ : State) (r : Slicer) (b : UInt8) : Stage → Except DecodeError (State × List Report)
  | .header none => .ok ({ σ with phase := .extract r (.header (some b)) }, [])
  | .header (some first) => do
    let h ← FrameHeader.parse first b
    follows σ.lastIndex h.index
    let fresh := h.index = 0
    let dropped := if fresh ∧ σ.packet ≠ [] then [.restarted σ.packet.length] else []
    let packet := if fresh then [] else σ.packet
    return (⟨.extract r (.payload h [] 0), packet, σ.lastIndex⟩, dropped ++ [.header h])
  | .payload h chunk crc =>
    let chunk := chunk ++ [b]
    let crc := d.crc.update crc b
    let stage := if h.size.toNat ≤ chunk.length then .checksum h chunk crc else .payload h chunk crc
    .ok ({ σ with phase := .extract r stage }, [])
  | .checksum h chunk crc =>
    if crc ≠ b then .error (.crcMismatch crc b)
    else
      let packet := σ.packet ++ chunk
      let arrived := Report.frame h.index chunk.length
      if h.isLast then .ok (.initial, [arrived, .packet packet])
      else .ok (⟨.search .start, packet, some h.index⟩, [arrived])

def symbol (σ : State) (r : Slicer) (stage : Stage) (codeword : UInt16) : State × List Report :=
  match LineCode.decode codeword with
  | none => (.initial, [.failed (.invalidSymbol codeword)])
  | some b => match d.receive σ r b stage with
    | .ok (σ, reports) => (σ, .byte b stage :: reports)
    | .error e => (.initial, [.byte b stage, .failed e])

/-- Takes a sample, without acting on a candidate that it settles. -/
def observe (σ : State) (s : Sample) : State × List Report :=
  match σ.phase with
  | .search detector =>
    let (detector, power) := detector.push d.filter d.threshold s
    ({ σ with phase := .search detector }, (power.map .candidate).toList)
  | .extract r stage =>
    let size := match stage with
      | .header _ => d.headerSize
      | _ => d.size
    match r.push size s with
    | (r, none) => ({ σ with phase := .extract r stage }, [])
    | (r, some codeword) => d.symbol σ r stage codeword

def observeAll (σ : State) (samples : List Sample) : State × List Report :=
  let (σ, reports) := samples.foldl (fun (σ, reports) s ↦
    let (σ, new) := d.observe σ s
    (σ, new.reverse ++ reports)) (σ, [])
  (σ, reports.reverse)

/-- Starts a frame at a candidate: what is read begins right after the peak, moved by the estimated
offset, and the samples after that are still to be read. -/
def lock (σ : State) (c : Candidate) : State × List Report × List Sample :=
  let right := c.right.getD c.left
  let adjustment := estimateAdjustment c.left c.peak right
  let samples := c.since.reverse
  let skip := if 0 ≤ adjustment then 0 else 1
  let phase := if 0 ≤ adjustment then 1 - adjustment else -adjustment
  let slicer := Slicer.start (.ofSample (samples.getD skip 0)) phase
  ({ σ with phase := .extract slicer (.header none) }, [.locked c.peak c.left right adjustment],
    samples.drop (skip + 1))

def State.settled (f : MatchedFilter) (σ : State) : Option Candidate :=
  match σ.phase with
  | .search detector => detector.settled f
  | .extract .. => none

/-- Takes a sample. The samples played again after a lock are too few to settle another candidate. -/
def step (σ : State) (s : Sample) : State × List Report :=
  let (σ, reports) := d.observe σ s
  match σ.settled d.filter with
  | none => (σ, reports)
  | some c =>
    let (σ, locked, replay) := lock σ c
    let (σ, rest) := d.observeAll σ replay
    (σ, reports ++ locked ++ rest)

def run (σ : State) (samples : List Sample) : State × List Report :=
  let (σ, reports) := samples.foldl (fun (σ, reports) s ↦
    let (σ, new) := d.step σ s
    (σ, new.reverse ++ reports)) (σ, [])
  (σ, reports.reverse)

def events (reports : List Report) : List Event := reports.filterMap Report.event?

end Demodulator

end SoundLink
