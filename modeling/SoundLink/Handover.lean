import SoundLink.Queue

namespace SoundLink

variable {α : Type}

inductive Push (α : Type)
  | idle
  | refused (a : α)
  /-- The oldest item was taken out, unless the queue had none left. -/
  | cleared (a : α) (displaced : Bool)
  deriving DecidableEq

inductive Exit
  | taken
  | displaced
  deriving DecidableEq

structure Handover (α : Type) where
  backlog : Backlog α
  push : Push α
  /-- The pushes that have ended, in their order: what was pushed, and whether that displaced an item. -/
  ended : List (α × Bool)
  left : List (α × Exit)

namespace Handover

inductive Move (α : Type)
  | push (a : α)
  | retry
  | take
  deriving DecidableEq

def start (capacity : Nat) : Handover α := ⟨.empty capacity, .idle, [], []⟩

def waiting (s : Handover α) : List α := s.backlog.blocks.items

def begin (s : Handover α) (a : α) : Handover α :=
  match s.push with
  | .idle => match s.backlog.blocks.trySend a with
    | (blocks, true) =>
      { s with backlog := { s.backlog with blocks }, ended := s.ended ++ [(a, false)] }
    | (_, false) => { s with push := .refused a }
  | _ => s

/-- The last try of a push counts what the push has displaced. -/
def retry (s : Handover α) : Handover α :=
  match s.push with
  | .idle => s
  | .refused a =>
    let (backlog, oldest) := s.backlog.tryReceive
    { s with backlog, push := .cleared a oldest.isSome,
             left := s.left ++ oldest.toList.map fun b ↦ (b, .displaced) }
  | .cleared a displaced =>
    { s with
      backlog := ⟨(s.backlog.blocks.trySend a).1,
        if displaced then s.backlog.dropped + 1 else s.backlog.dropped⟩
      push := .idle
      ended := s.ended ++ [(a, displaced)] }

def take (s : Handover α) : Handover α :=
  let (backlog, oldest) := s.backlog.tryReceive
  { s with backlog, left := s.left ++ oldest.toList.map fun b ↦ (b, .taken) }

def move (s : Handover α) : Move α → Handover α
  | .push a => s.begin a
  | .retry => s.retry
  | .take => s.take

def run (s : Handover α) (moves : List (Move α)) : Handover α := moves.foldl move s

def pushed (s : Handover α) : List α := s.ended.map Prod.fst

def reported (s : Handover α) : Nat := (s.ended.map Prod.snd).count true

def leftBy (s : Handover α) (exit : Exit) : List α := (s.left.filter fun x ↦ x.2 = exit).map Prod.fst

end Handover

end SoundLink
