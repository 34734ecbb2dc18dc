import SoundLink.Frame.Header
import SoundLink.Mac.Header

namespace SoundLink

inductive Waiting
  | free
  | played
  | acknowledgement
  | backoff
  deriving DecidableEq, Repr

structure Transmission where
  destination : UInt8
  index : UInt8
  maxRetries : Nat
  waiting : Waiting := .free
  retries : Nat := 0
  timeouts : Nat := 0
  deriving DecidableEq

inductive Occurrence
  | busy
  | free
  | played
  | cutOff
  | disturbed (e : DecodeError)
  | acknowledged (index : UInt8)
  | expired
  | rested (delay : Nat)
  deriving DecidableEq

inductive Notice
  | deferred
  | attempt (n : Nat)
  | collision (e : DecodeError)
  | disturbance (e : DecodeError)
  | acknowledged
  | timeout (n : Nat)
  | backedOff (delay retry : Nat)
  | gaveUp (attempts : Nat)
  deriving DecidableEq

inductive Standing
  | going (t : Transmission)
  | ended (result : Except MacError Unit)

namespace Transmission

/-- Goes on unless the layer is closed or the budget is spent. -/
def proceed (closed : Bool) (t : Transmission) : Standing × List Notice :=
  if closed then (.ended (.error .closed), [])
  else if t.maxRetries < t.retries then
    (.ended (.error (.retriesExhausted t.index t.retries)), [.gaveUp t.retries])
  else (.going t, [])

def retry (t : Transmission) (waiting : Waiting) : Transmission :=
  { t with waiting, retries := t.retries + 1 }

/-- What a transmission does on an occurrence; one that it does not wait for changes nothing. -/
def step (closed : Bool) (t : Transmission) (o : Occurrence) : Standing × List Notice :=
  let after (t : Transmission) (notices : List Notice) :=
    let (standing, more) := t.proceed closed
    (standing, notices ++ more)
  match t.waiting, o with
  | .free, .busy => after t [.deferred]
  | .free, .free => match after { t with waiting := .played } [] with
    | (.going t, notices) => (.going t, notices ++ [.attempt (t.retries + 1)])
    | ended => ended
  | .played, .played => after { t with waiting := .acknowledgement } []
  | .played, .cutOff => (.ended (.error (.phy .closed)), [])
  | .played, .disturbed e => after (t.retry .backoff) [.collision e]
  | .acknowledgement, .acknowledged i =>
    if i = t.index then (.ended (.ok ()), [.acknowledged]) else after t []
  | .acknowledgement, .disturbed e => after (t.retry .backoff) [.disturbance e]
  | .acknowledgement, .expired =>
    after { t.retry .free with timeouts := t.timeouts + 1 } [.timeout (t.timeouts + 1)]
  | .backoff, .rested delay => after { t with waiting := .free } [.backedOff delay t.retries]
  | _, _ => (.going t, [])

def run (closed : Bool) : Standing → List Occurrence → Standing × List Notice
  | .going t, o :: rest =>
    let (standing, notices) := t.step closed o
    let (standing, more) := run closed standing rest
    (standing, notices ++ more)
  | standing, _ => (standing, [])

end Transmission

end SoundLink
