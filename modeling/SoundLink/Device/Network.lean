import SoundLink.Device

namespace SoundLink

def Sample.mix (a b : Sample) : Sample := Int32.ofIntClamp (a.toInt + b.toInt)

structure Link where
  listens : Nat
  speaks : Nat
  deriving DecidableEq, Repr

structure Node where
  link : Link
  running : Bool
  output : List Sample

variable {τ : Type}

/-- A medium whose tap rewrites what each node speaks, by the number of the node and by what it remembers of the
blocks before. -/
structure Network (τ : Type) where
  size : Nat
  tap : τ → Nat → List Sample → List Sample × τ
  memory : τ
  nodes : List Node

namespace Network

def ofLinks (links : List Link) (size : Nat) (tap : τ → Nat → List Sample → List Sample × τ) (memory : τ) :
    Network τ where
  size := max 1 size
  tap := tap
  memory := memory
  nodes := links.map fun link ↦ ⟨link, false, Device.silence (max 1 size)⟩

def shared (n : Nat) : List Link := List.replicate n ⟨0, 0⟩

def bus (w : Network τ) (b : Nat) : List Sample :=
  w.nodes.foldl (fun mix node ↦
    if node.link.speaks = b then List.zipWith Sample.mix mix node.output else mix) (Device.silence w.size)

def heard (w : Network τ) : List (Option (List Sample)) :=
  w.nodes.map fun node ↦ if node.running then some (w.bus node.link.listens) else none

def start (w : Network τ) (i : Nat) : Except DeviceError (Network τ) :=
  if (w.nodes[i]?).any Node.running then .error .alreadyStarted
  else .ok { w with nodes := w.nodes.modify i fun node ↦ { node with running := true } }

/-- Stops a node; all falls silent with the last one, and the tap still remembers. -/
def stop (w : Network τ) (i : Nat) : Network τ :=
  let nodes := w.nodes.modify i fun node ↦ { node with running := false }
  { w with nodes :=
    if nodes.any Node.running then nodes
    else nodes.map fun node ↦ { node with output := Device.silence w.size } }

def spoken (w : Network τ) (f : Nat → Callback) (i : Nat) (node : Node) : List Sample :=
  if node.running then f i (w.bus node.link.listens) node.output else Device.silence w.size

/-- Lets nodes speak one after the other, the tap coming to each with what it remembers of those before. -/
def speak (w : Network τ) (f : Nat → Callback) (t : τ) : List (Node × Nat) → List Node × τ
  | [] => ([], t)
  | (node, i) :: rest =>
    let (output, t) := w.tap t i (w.spoken f i node)
    let (nodes, t) := w.speak f t rest
    ({ node with output } :: nodes, t)

def tick (w : Network τ) (f : Nat → Callback) : Network τ :=
  let (nodes, memory) := w.speak f w.memory w.nodes.zipIdx
  { w with nodes, memory }

end Network

end SoundLink
