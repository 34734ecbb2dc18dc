import SoundLink.Frame.Registers
import SoundLink.Handover

namespace SoundLink

structure Intake where
  backlog : Backlog (List Sample)
  push : Push (List Sample)
  coming : List (List Sample)
  taken : Option (List Sample)
  registers : Registers
  events : List Event
  left : List (List Sample × Exit)

inductive Party
  | device
  | worker
  deriving DecidableEq

namespace Intake

def start (capacity : Nat) (blocks : List (List Sample)) : Intake :=
  ⟨.empty capacity, .idle, blocks, none, .new, [], []⟩

/-- One try of a push. The last of them counts what the push has displaced. -/
def device (s : Intake) : Intake :=
  match s.push with
  | .idle => match s.coming with
    | [] => s
    | block :: coming => match s.backlog.blocks.trySend block with
      | (blocks, true) => { s with backlog := { s.backlog with blocks }, coming }
      | (_, false) => { s with push := .refused block, coming }
  | .refused block =>
    let (backlog, oldest) := s.backlog.tryReceive
    { s with backlog, push := .cleared block oldest.isSome,
             left := s.left ++ oldest.toList.map fun block ↦ (block, .displaced) }
  | .cleared block displaced =>
    { s with
      backlog := ⟨(s.backlog.blocks.trySend block).1,
        if displaced then s.backlog.dropped + 1 else s.backlog.dropped⟩
      push := .idle }

/-- Takes the oldest block, or decodes the one that was taken. -/
def worker (d : Demodulator) (s : Intake) : Intake :=
  match s.taken with
  | some block =>
    let (registers, events) := d.process s.registers block
    { s with taken := none, registers, events := s.events ++ events }
  | none => match s.backlog.tryReceive with
    | (_, none) => s
    | (backlog, some block) =>
      { s with backlog, taken := some block, left := s.left ++ [(block, .taken)] }

def move (d : Demodulator) (s : Intake) : Party → Intake
  | .device => s.device
  | .worker => s.worker d

def run (d : Demodulator) (s : Intake) (schedule : List Party) : Intake := schedule.foldl (move d) s

def after (d : Demodulator) (capacity : Nat) (blocks : List (List Sample)) (schedule : List Party) :
    Intake :=
  (start capacity blocks).run d schedule

structure Drained (s : Intake) : Prop where
  coming_eq : s.coming = []
  push_eq : s.push = .idle
  items_eq : s.backlog.blocks.items = []
  taken_eq : s.taken = none

def survivors (left : List (List Sample × Exit)) : List (List Sample) :=
  (left.filter fun x ↦ x.2 = .taken).map Prod.fst

end Intake

end SoundLink
