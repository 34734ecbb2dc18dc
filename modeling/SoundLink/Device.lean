import SoundLink.Error

namespace SoundLink

/-- From the block that is heard and what the output buffer still holds to what it holds then. -/
abbrev Callback := List Sample → List Sample → List Sample

namespace Device

def silence (size : Nat) : List Sample := List.replicate size 0

def overlay (block : List Sample) : Callback := fun _ buffer ↦
  block.take buffer.length ++ buffer.drop block.length

/-- A block takes its length over the sample rate, which has to be a finite time. -/
def checkPace : Option UInt32 → Except Fault Unit
  | some 0 => .error .endlessPeriod
  | _ => .ok ()

end Device

/-- No server of the system gives access to a sound card. -/
def Config.Device.start (d : Config.Device) : Except DeviceError Unit :=
  .error (.backend s!"no sound server for {d.clientName}")

structure Loopback where
  size : Nat
  /-- While it runs, the block that is heard next and the buffer that is played into. -/
  buffers : Option (List Sample × List Sample)

namespace Loopback

def ofSize (size : Nat) : Loopback := ⟨max 1 size, none⟩

def start (d : Loopback) : Except DeviceError Loopback :=
  if d.buffers.isSome then .error .alreadyStarted
  else .ok { d with buffers := some (Device.silence d.size, Device.silence d.size) }

def stop (d : Loopback) : Loopback := { d with buffers := none }

def heard (d : Loopback) : Option (List Sample) := d.buffers.map Prod.fst

/-- Runs one period; the two buffers change places. -/
def tick (d : Loopback) (f : Callback) : Loopback :=
  { d with buffers := d.buffers.map fun (heard, output) ↦ (f heard output, heard) }

end Loopback

end SoundLink
