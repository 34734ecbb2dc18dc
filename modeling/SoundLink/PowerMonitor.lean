import SoundLink.Config
import SoundLink.Fifo
import SoundLink.Fixed
import SoundLink.Queue

namespace SoundLink

structure Channel where
  busy : Bool := false
  /-- Set when the channel falls silent, until someone takes notice. -/
  freed : Signal Unit := {}
  deriving DecidableEq

namespace Channel

def observe (c : Channel) (busy : Bool) : Channel :=
  ⟨busy, if c.busy && !busy then c.freed.notify () else c.freed⟩

def takeFreed (c : Channel) : Channel × Bool :=
  let (freed, notice) := c.freed.take
  ({ c with freed }, notice.isSome)

/-- Says whether the channel is free; a busy one is waited for, which takes notice. -/
def awaitFree (c : Channel) : Channel × Bool := (if c.busy then c.takeFreed.1 else c, !c.busy)

end Channel

structure PowerMonitor where
  threshold : Fixed
  span : Nat
  window : Fifo Fixed
  sum : Fixed
  /-- The highest mean of the last block. -/
  power : Fixed
  channel : Channel

namespace PowerMonitor

def ofConfig (c : Config.PowerMonitor) : PowerMonitor :=
  ⟨.ofBinary c.threshold, c.window.toNat, .empty, 0, 0, {}⟩

/-- The words of the largest window that an address space holds. -/
def maxSpan : Nat := Nat.pow 2 61 - 2

def reserve (c : Config.PowerMonitor) : Except Fault PowerMonitor :=
  if maxSpan < c.window.toNat then .error .overflow else .ok (ofConfig c)

def slide (m : PowerMonitor) (s : Sample) : PowerMonitor :=
  let magnitude := (Fixed.ofSample s).abs
  let window := m.window.push magnitude
  let sum := m.sum + magnitude
  match if m.span < window.size then window.pop? else none with
  | some (oldest, window) => { m with window, sum := sum - oldest }
  | none => { m with window, sum }

/-- Moves the window over a block; hands out the largest sum on the way. -/
def scan (m : PowerMonitor) (block : List Sample) : PowerMonitor × Fixed :=
  block.foldl (fun (m, peak) s ↦
    let m := m.slide s
    (m, if peak < m.sum then m.sum else peak)) (m, 0)

/-- The divisor of a mean, which wraps. -/
def divisor (m : PowerMonitor) : Fixed := .ofInt (Int32.ofNat m.span)

def busy (m : PowerMonitor) : Bool := m.threshold < m.power

/-- Takes a block; an empty one changes nothing. -/
def update (m : PowerMonitor) (block : List Sample) : Except Fault PowerMonitor := do
  if block.isEmpty then return m
  let (m, peak) := m.scan block
  let m := { m with power := ← peak.div m.divisor }
  return { m with channel := m.channel.observe m.busy }

end PowerMonitor

end SoundLink
