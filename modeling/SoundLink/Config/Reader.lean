import SoundLink.Error
import SoundLink.Json.Number
import SoundLink.Json.Reader
import SoundLink.Utf8

namespace SoundLink

structure Field (α : Type) where
  name : String
  store : Json → α → Option α

namespace Field

variable {α β : Type}

/-- Stores the members of a record, each field at most once; `seen` are the fields stored. -/
def storeMembers (fields : List (Field α)) : List String → List (Points × Json) → α → Option α
  | _, [], a => some a
  | seen, (key, j) :: rest, a => do
    let name ← key.toString?
    match fields.find? (·.name = name) with
    | none => storeMembers fields seen rest a
    | some f => if name ∈ seen then none else storeMembers fields (name :: seen) rest (← f.store j a)

/-- Stores listed values in the order of the fields; there may be fewer values than fields. -/
def storeItems : List (Field α) → List Json → α → Option α
  | _, [], a => some a
  | [], _ :: _, _ => none
  | f :: fields, j :: rest, a => f.store j a >>= storeItems fields rest

def read (fields : List (Field α)) (defaults : α) : Json → Option α
  | .record members => storeMembers fields [] members defaults
  | .list items => storeItems fields items defaults
  | _ => none

def of (name : String) (value : Json → Option β) (set : β → α → α) : Field α :=
  ⟨name, fun j a ↦ (value j).map (set · a)⟩

/-- A field that is a record of its own and keeps what it does not name. -/
def nested (name : String) (fields : List (Field β)) (get : α → β) (set : β → α → α) : Field α :=
  ⟨name, fun j a ↦ (read fields (get a) j).map (set · a)⟩

end Field

namespace Json

def natural? (limit : Nat) : Json → Option Nat
  | .number n => n.natural?.filter (· < limit)
  | _ => none

def uint8? (j : Json) : Option UInt8 := (j.natural? UInt8.size).map UInt8.ofNat

def uint32? (j : Json) : Option UInt32 := (j.natural? UInt32.size).map UInt32.ofNat

def uint64? (j : Json) : Option UInt64 := (j.natural? UInt64.size).map UInt64.ofNat

def binary? : Json → Option Binary
  | .number n => n.toBinary?
  | _ => none

def bool? : Json → Option Bool
  | .bool b => some b
  | _ => none

def string? : Json → Option String
  | .text ps => ps.toString?
  | _ => none

mutual

/-- Whether every number is a double and every text, member names included, a string. -/
def isPlain : Json → Bool
  | .number n => n.toBinary?.isSome
  | .text ps => ps.toString?.isSome
  | .list items => plainItems items
  | .record members => plainMembers members
  | _ => true

def plainItems : List Json → Bool
  | [] => true
  | j :: rest => j.isPlain && plainItems rest

def plainMembers : List (Points × Json) → Bool
  | [] => true
  | (key, j) :: rest => key.toString?.isSome && j.isPlain && plainMembers rest

end

end Json

namespace Config

open SoundLink.Field Json

def Device.fields : List (Field Device) :=
  [.of "client_name" string? fun v d ↦ { d with clientName := v },
    .of "sample_rate" uint32? fun v d ↦ { d with sampleRate := v },
    .of "connect_system_ports" bool? fun v d ↦ { d with connectSystemPorts := v }]

def Preamble.fields : List (Field Preamble) :=
  [.of "n" uint64? fun v p ↦ { p with ramp := v },
    .of "amplitude" binary? fun v p ↦ { p with amplitude := v },
    .of "threshold" binary? fun v p ↦ { p with threshold := v }]

def Carrier.fields : List (Field Carrier) :=
  [.of "amplitude" binary? fun v c ↦ { c with amplitude := v },
    .of "size" uint64? fun v c ↦ { c with size := v },
    .of "header_size" uint64? fun v c ↦ { c with headerSize := v }]

def PowerMonitor.fields : List (Field PowerMonitor) :=
  [.of "threshold" binary? fun v p ↦ { p with threshold := v },
    .of "window" uint64? fun v p ↦ { p with window := v }]

def Phy.fields : List (Field Phy) :=
  [.of "byte_per_frame" uint64? fun v p ↦ { p with bytesPerFrame := v },
    .of "frame_interval" uint64? fun v p ↦ { p with frameInterval := v },
    .of "crc_polynomial" uint8? fun v p ↦ { p with crcPolynomial := v },
    .nested "preamble" Preamble.fields Phy.preamble fun v p ↦ { p with preamble := v },
    .nested "carrier" Carrier.fields Phy.carrier fun v p ↦ { p with carrier := v },
    .nested "power_monitor" PowerMonitor.fields Phy.powerMonitor fun v p ↦ { p with powerMonitor := v },
    .of "input_buffer_size" uint64? fun v p ↦ { p with inputBuffer := v },
    .of "output_buffer_size" uint64? fun v p ↦ { p with outputBuffer := v },
    .of "packet_buffer_size" uint64? fun v p ↦ { p with packetBuffer := v }]

/-- The nesting allowed in a back-off record of a configuration text: its values are held until
the kind is known, and values that are held nest no deeper. -/
def Backoff.depthLimit : Nat := 125

def member? (name : String) (members : List (Points × Json)) : Option Json :=
  match members.filter (fun m ↦ m.1 = Points.ofString name) with
  | [(_, j)] => some j
  | _ => none

def Backoff.ofMembers? (members : List (Points × Json)) : Option Backoff := do
  let kind ← (← member? "kind" members).string?
  if kind = "random" then
    return .random (← (← member? "min_ms" members).uint64?) (← (← member? "max_ms" members).uint64?)
  else if kind = "fixed" then return .fixed (← (← member? "delay_ms" members).uint64?)
  else none

def Backoff.ofItems? : List Json → Option Backoff
  | [kind, lo, hi] => do
    if (← kind.string?) = "random" then return .random (← lo.uint64?) (← hi.uint64?) else none
  | [kind, delay] => do
    if (← kind.string?) = "fixed" then return .fixed (← delay.uint64?) else none
  | _ => none

/-- Reads a back-off record, or the list of its kind and fields. Members of other names are
ignored, but must be plain. -/
def Backoff.ofJson? (j : Json) : Option Backoff :=
  if !j.isPlain || Backoff.depthLimit < j.depth then none
  else match j with
    | .record members => ofMembers? members
    | .list items => ofItems? items
    | _ => none

def Mac.fields : List (Field Mac) :=
  [.of "address" uint8? fun v m ↦ { m with address := v },
    .of "byte_per_frame" uint64? fun v m ↦ { m with bytesPerFrame := v },
    .of "ack_timeout_ms" uint64? fun v m ↦ { m with ackTimeout := v },
    .of "max_retries" uint32? fun v m ↦ { m with maxRetries := v },
    .of "backoff" Backoff.ofJson? fun v m ↦ { m with backoff := v },
    .of "output_buffer_size" uint64? fun v m ↦ { m with outputBuffer := v }]

def fields : List (Field Config) :=
  [.nested "device" Device.fields Config.device fun v c ↦ { c with device := v },
    .nested "phy" Phy.fields Config.phy fun v c ↦ { c with phy := v },
    .nested "mac" Mac.fields Config.mac fun v c ↦ { c with mac := v }]

def Device.ofJson? : Json → Option Device := read Device.fields {}

def Phy.ofJson? : Json → Option Phy := read Phy.fields {}

def PowerMonitor.ofJson? : Json → Option PowerMonitor := read PowerMonitor.fields {}

def Mac.ofJson? : Json → Option Mac := read Mac.fields {}

def ofJson? : Json → Option Config := read Config.fields {}

def load (path : String) (contents : Except String (List UInt8)) : Outcome ConfigError Config :=
  match contents with
  | .error cause => .fail (.unreadable path cause)
  | .ok bytes => match Utf8.decode? bytes with
    | none => .fail (.unreadable path "stream did not contain valid UTF-8")
    | some s => match Json.read? s >>= ofJson? with
      | none => .fail .malformed
      | some c => do
        Outcome.lift .invalid c.check
        return c

end Config

end SoundLink
