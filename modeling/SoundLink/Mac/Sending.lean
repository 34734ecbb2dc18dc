import SoundLink.Mac.Station
import SoundLink.Mac.Transmission

namespace SoundLink

inductive Incident
  | packet (bytes : List UInt8)
  | disturbance (e : DecodeError)
  | closing
  deriving DecidableEq

inductive Passage
  | cutOff
  | disturbed (e : DecodeError)
  | played (incidents : List Incident)
  deriving DecidableEq

structure Medium (σ : Type) where
  play : σ → List UInt8 → σ × Passage
  answer : σ → List UInt8 → σ × List (List UInt8)

inductive Remark
  | sending (size : Nat) (destination : UInt8) (frames : Nat)
  | frame (h : MacHeader) (size : Nat) (notice : Notice)
  | delivered (frames : Nat) (destination : UInt8)
  deriving DecidableEq

structure Session (σ : Type) where
  station : Station
  medium : σ
  remarks : List Remark := []

namespace Session

variable {σ : Type} (m : Medium σ)

/-- Takes a packet and answers it. A closed station has no way to answer. -/
def hear (w : Session σ) (packet : List UInt8) : Session σ :=
  match w.station.handle packet with
  | (station, none) => { w with station }
  | (station, some ack) =>
    if station.closed then { w with station }
    else
      let (medium, back) := m.answer w.medium ack.bytes
      { w with station := (station.handleAll back).1, medium }

structure Run (σ : Type) where
  session : Session σ
  header : MacHeader
  bytes : List UInt8
  standing : Standing

namespace Run

def occur (r : Run σ) (o : Occurrence) : Run σ :=
  match r.standing with
  | .ended _ => r
  | .going t =>
    let (standing, notices) := t.step r.session.station.closed o
    { r with
      standing
      session.remarks := r.session.remarks ++ notices.map (.frame r.header r.bytes.length) }

def collect (r : Run σ) : Run σ :=
  match r.standing, r.session.station.acks.pending with
  | .going t, some i =>
    if t.waiting = .acknowledgement then
      { r with session.station.acks := r.session.station.acks.clear }.occur (.acknowledged i)
    else r
  | _, _ => r

/-- What an incident does; a closed station is reached by no packet. -/
def meet (r : Run σ) : Incident → Run σ
  | .packet bytes =>
    if r.session.station.closed then r else { r with session := r.session.hear m bytes }.collect
  | .disturbance e => r.occur (.disturbed e)
  | .closing => { r with session.station := r.session.station.close }

def rest (r : Run σ) : Run σ := r.occur (.rested (r.session.station.backoff.delay 0))

def attempt (r : Run σ) : Run σ :=
  let r := r.occur .free
  match r.standing with
  | .ended _ => r
  | .going _ =>
    let (medium, passage) := m.play r.session.medium r.bytes
    let r := { r with session.medium := medium }
    match passage with
    | .cutOff => { r with session.station := r.session.station.close }.occur .cutOff
    | .disturbed e => (r.occur (.disturbed e)).rest
    | .played incidents => ((incidents.foldl (meet m) (r.occur .played).collect).occur .expired).rest

/-- Tries up to `n` times. Each try that brings no end takes a retry, so one more than the budget
suffices. -/
def repeatedly : Nat → Run σ → Run σ
  | 0, r => r
  | n + 1, r => match r.standing with
    | .ended _ => r
    | .going _ => repeatedly n (r.attempt m)

def result (r : Run σ) : Except MacError Unit :=
  match r.standing with
  | .ended result => result
  | .going t => .error (.retriesExhausted t.index t.retries)

end Run

def transmit (w : Session σ) (h : MacHeader) (part : List UInt8) : Session σ × Except MacError Unit :=
  let budget := w.station.maxRetries
  let station := { w.station with awaiting := some (h.destination, h.index), acks := w.station.acks.clear }
  let (standing, _) := Transmission.proceed station.closed ⟨h.destination, h.index, budget, .free, 0, 0⟩
  let r := Run.repeatedly m (budget + 1) ⟨{ w with station }, h, h.frame part, standing⟩
  ({ r.session with station.awaiting := none }, r.result)

def transmitAll (w : Session σ) : List (MacHeader × List UInt8) → Session σ × Except MacError Unit
  | [] => (w, .ok ())
  | (h, part) :: rest => match w.transmit m h part with
    | (w, .ok ()) => w.transmitAll rest
    | failed => failed

def remark (w : Session σ) (r : Remark) : Session σ := { w with remarks := w.remarks ++ [r] }

/-- Sends a payload; an empty one takes no frame. -/
def send (w : Session σ) (destination : UInt8) (payload : List UInt8) : Session σ × Except MacError Unit :=
  if Config.maxAddress < destination.toNat then (w, .error (.invalidAddress destination))
  else if payload.isEmpty then (w, .ok ())
  else
    let frames := w.station.frames destination payload
    match (w.remark (.sending payload.length destination frames.length)).transmitAll m frames with
    | (w, .ok ()) => (w.remark (.delivered frames.length destination), .ok ())
    | failed => failed

end Session

end SoundLink
