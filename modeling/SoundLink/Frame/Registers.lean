import SoundLink.Frame.Demodulator

namespace SoundLink

inductive Mode
  | search
  | header
  | payload
  | checksum
  deriving DecidableEq

structure Peak where
  left : Fixed
  peak : Fixed
  right : Option Fixed

structure SearchRegisters where
  window : List Sample
  previous : Fixed
  best : Fixed
  candidate : Option Peak
  distance : Nat
  kept : List Sample

structure Registers where
  mode : Mode
  search : SearchRegisters
  slicer : Slicer
  crc : UInt8
  headerBytes : List UInt8
  header : Option FrameHeader
  lastIndex : Option UInt8
  chunk : List UInt8
  packet : List UInt8

namespace SearchRegisters

def clear : SearchRegisters := ⟨[], 0, 0, none, 0, []⟩

def compare (threshold : Fixed) (r : SearchRegisters) (power : Fixed) (s : Sample) : SearchRegisters :=
  if r.best < power ∧ threshold < power then
    ⟨r.window, power, power, some ⟨r.previous, power, none⟩, 0, [s]⟩
  else match r.candidate with
    | some c =>
      ⟨r.window, power, r.best, some { c with right := some (c.right.getD power) }, r.distance + 1,
        r.kept ++ [s]⟩
    | none => { r with previous := power }

def push (f : MatchedFilter) (threshold : Fixed) (r : SearchRegisters) (s : Sample) : SearchRegisters :=
  let window := (s :: r.window).take f.span
  if window.length < f.span then { r with window }
  else compare threshold { r with window } (f.power window) s

/-- The candidate that as many samples as a preamble has have left the strongest. -/
def settled (f : MatchedFilter) (r : SearchRegisters) : Option Peak :=
  if f.span ≤ r.window.length ∧ f.span ≤ r.distance then r.candidate else none

theorem length_kept_push (f : MatchedFilter) (threshold : Fixed) (r : SearchRegisters) (s : Sample) :
    (r.push f threshold s).kept.length ≤ r.kept.length + 1 := by
  unfold push compare
  dsimp only
  split
  · exact Nat.le_succ _
  · split
    · simp
    · split <;> simp

end SearchRegisters

namespace Registers

def new : Registers := ⟨.search, .clear, .start 0 0, 0, [], none, none, [], []⟩

def beginFrame (r : Registers) : Registers :=
  { r with mode := .header, slicer := .start r.slicer.last r.slicer.phase, headerBytes := [],
           header := none, chunk := [] }

def endFrame (r : Registers) : Registers :=
  { r with mode := .search, header := none, chunk := [], headerBytes := [] }

def abortPacket (r : Registers) : Registers :=
  { r.endFrame with packet := [], lastIndex := none, search := .clear }

def reset (r : Registers) : Registers := r.abortPacket

/-- Turns from a candidate to its frame; hands out the samples that are to be taken again. -/
def startExtraction (r : Registers) (c : Peak) : Registers × List Sample :=
  let adjustment := estimateAdjustment c.left c.peak (c.right.getD c.left)
  let skip := if 0 ≤ adjustment then 0 else 1
  let last := Fixed.ofSample (r.search.kept.getD skip 0)
  let phase := if 0 ≤ adjustment then 1 - adjustment else -adjustment
  (beginFrame { r with search := .clear, slicer := { r.slicer with last, phase } },
    r.search.kept.drop (skip + 1))

end Registers

namespace Demodulator

variable (d : Demodulator)

def detect (r : Registers) (s : Sample) : Registers × List Sample :=
  let r := { r with search := r.search.push d.filter d.threshold s }
  match r.search.settled d.filter with
  | some c => r.startExtraction c
  | none => (r, [])

def receiveHeader (r : Registers) (b : UInt8) : Registers × Except DecodeError (List Event) :=
  let r := { r with headerBytes := r.headerBytes ++ [b] }
  match r.headerBytes with
  | first :: second :: _ => match FrameHeader.parse first second with
    | .error e => (r, .error e)
    | .ok h =>
      let r := { r with headerBytes := [] }
      match follows r.lastIndex h.index with
      | .error e => (r, .error e)
      | .ok () =>
        ({ r with packet := if h.index = 0 then [] else r.packet, header := some h, crc := 0,
                  chunk := [], mode := .payload }, .ok [])
  | _ => (r, .ok [])

def receivePayload (r : Registers) (b : UInt8) : Registers × Except DecodeError (List Event) :=
  let chunk := r.chunk ++ [b]
  let expected := (r.header.map (·.size.toNat)).getD 0
  ({ r with chunk, crc := d.crc.update r.crc b,
            mode := if expected ≤ chunk.length then .checksum else r.mode }, .ok [])

def receiveChecksum (r : Registers) (b : UInt8) : Registers × Except DecodeError (List Event) :=
  if r.crc ≠ b then (r, .error (.crcMismatch r.crc b))
  else match r.header with
    | none => (r, .error .emptyFrame)
    | some h =>
      let packet := r.packet ++ r.chunk
      if h.isLast then
        (Registers.endFrame { r with packet := [], lastIndex := none }, .ok [.packet packet])
      else (Registers.endFrame { r with packet, lastIndex := some h.index }, .ok [])

def receiveByte (r : Registers) (b : UInt8) : Registers × Except DecodeError (List Event) :=
  match r.mode with
  | .header => receiveHeader r b
  | .payload => d.receivePayload r b
  | _ => receiveChecksum r b

def extract (r : Registers) (s : Sample) : Registers × Except DecodeError (List Event) :=
  match r.slicer.push (if r.mode = .header then d.headerSize else d.size) s with
  | (slicer, none) => ({ r with slicer }, .ok [])
  | (slicer, some codeword) => match LineCode.decode codeword with
    | none => ({ r with slicer }, .error (.invalidSymbol codeword))
    | some b => d.receiveByte { r with slicer } b

/-- What one sample does: the registers after it, the packet or the error that it completes, and the
samples that are to be taken again before the next. -/
structure Taken where
  registers : Registers
  events : List Event
  replay : List Sample

def take (r : Registers) (s : Sample) : Taken :=
  if r.mode = .search then ⟨(d.detect r s).1, [], (d.detect r s).2⟩
  else match d.extract r s with
    | (r, .ok events) => ⟨r, events, []⟩
    | (r, .error e) => ⟨r.abortPacket, [.error e], []⟩

theorem receiveByte_leaves (r : Registers) (b : UInt8) :
    (d.receiveByte r b).1.search = r.search ∧ (d.receiveByte r b).1.slicer = r.slicer := by
  unfold receiveByte
  split
  · simp only [receiveHeader]
    split
    · split
      · exact ⟨rfl, rfl⟩
      · split <;> exact ⟨rfl, rfl⟩
    · exact ⟨rfl, rfl⟩
  · exact ⟨rfl, rfl⟩
  · unfold receiveChecksum
    split
    · exact ⟨rfl, rfl⟩
    · split
      · exact ⟨rfl, rfl⟩
      · split <;> exact ⟨rfl, rfl⟩

theorem search_extract (r : Registers) (s : Sample) : (d.extract r s).1.search = r.search := by
  unfold extract
  split
  · rfl
  · split
    · rfl
    · exact (d.receiveByte_leaves _ _).1

theorem length_take (r : Registers) (s : Sample) :
    (d.take r s).replay.length + (d.take r s).registers.search.kept.length ≤
        r.search.kept.length + 1 ∧
      ((d.take r s).replay ≠ [] →
        (d.take r s).replay.length + (d.take r s).registers.search.kept.length ≤
          r.search.kept.length) := by
  unfold take
  split
  · have hkept := r.search.length_kept_push d.filter d.threshold s
    unfold detect
    dsimp only
    split
    · rw [← List.length_pos_iff]
      simp only [Registers.startExtraction, Registers.beginFrame, SearchRegisters.clear,
        List.length_drop, List.length_nil]
      omega
    · simpa using hkept
  · have hsearch := d.search_extract r s
    split <;> rename_i h <;> rw [h] at hsearch <;> dsimp only at hsearch ⊢
    · rw [hsearch]
      simp
    · simp [Registers.abortPacket, SearchRegisters.clear]

/-- Takes a block. Samples that are to be taken again go before what is left of it. -/
def process (r : Registers) : List Sample → Registers × List Event
  | [] => (r, [])
  | s :: xs =>
    let t := d.take r s
    let (r, events) := process t.registers (t.replay ++ xs)
    (r, t.events ++ events)
termination_by xs => (xs.length + r.search.kept.length, xs.length)
decreasing_by
  obtain ⟨hle, hlt⟩ := d.length_take r s
  rw [Prod.lex_def, List.length_append, List.length_cons]
  by_cases hreplay : (d.take r s).replay = []
  · rw [hreplay, List.length_nil] at hle ⊢
    omega
  · have hfewer := hlt hreplay
    omega

/-- What a stream that comes in blocks makes a demodulator say: the packets and errors of each block,
and the state that it shows after it. -/
def transcript (r : Registers) : List (List Sample) → List (List Event × Mode)
  | [] => []
  | block :: blocks =>
    let (r, events) := d.process r block
    (events, r.mode) :: transcript r blocks

/-- The registers that samples and resets lead to, also between the samples that are taken again. -/
inductive Reachable : Registers → Prop
  | new : Reachable .new
  | take {r : Registers} (s : Sample) (h : Reachable r) : Reachable (d.take r s).registers
  | reset {r : Registers} (h : Reachable r) : Reachable r.reset

def State.mode (σ : State) : Mode :=
  match σ.phase with
  | .search _ => .search
  | .extract _ (.header _) => .header
  | .extract _ (.payload ..) => .payload
  | .extract _ (.checksum ..) => .checksum

/-- What a demodulator that forgets what it does not need says about the blocks of a stream. -/
def record (σ : State) : List (List Sample) → List (List Event × Mode)
  | [] => []
  | block :: blocks =>
    let (σ, reports) := d.run σ block
    (events reports, σ.mode) :: record σ blocks

end Demodulator

end SoundLink
