import SoundLink.Command.Options

namespace SoundLink

inductive Command
  | send (destination : UInt8) (input text : Option String) (chunk : UInt64)
  | receive (output : Option String) (timeout : UInt64) (count : Option UInt64)
  | modulate (input output : String)
  | demodulate (input : String) (output : Option String)
  | config
  deriving DecidableEq

structure Arguments where
  config : Option String
  address : Option UInt8
  loopback : Bool
  command : Command
  deriving DecidableEq

inductive Request
  | run (a : Arguments)
  | help
  | version

namespace Arguments

def general : List OptionSpec :=
  [⟨"config", some 'c', .path⟩, ⟨"address", some 'a', .byte⟩, ⟨"loopback", none, .flag⟩,
    ⟨"help", some 'h', .help⟩]

def version : OptionSpec := ⟨"version", some 'V', .version⟩

inductive CommandName
  | send
  | receive
  | modulate
  | demodulate
  | config
  deriving DecidableEq, Repr

namespace CommandName

def all : List CommandName := [send, receive, modulate, demodulate, config]

def text : CommandName → String
  | send => "send"
  | receive => "receive"
  | modulate => "modulate"
  | demodulate => "demodulate"
  | config => "config"

def about : CommandName → String
  | send => "Send a file or a text message to another node"
  | receive => "Print or store incoming packets until Ctrl+C or the timeout"
  | modulate => "Render a payload to a WAV file without touching the sound card"
  | demodulate => "Decode packets from a WAV recording"
  | config => "Print the effective configuration as JSON"

def ofText? (s : String) : Option CommandName := all.find? (·.text = s)

def options : CommandName → List OptionSpec
  | send =>
    [⟨"to", some 't', .byte⟩, ⟨"input", some 'i', .path⟩, ⟨"text", none, .text⟩, ⟨"chunk", none, .word⟩]
  | receive => [⟨"output", some 'o', .path⟩, ⟨"timeout-secs", none, .word⟩, ⟨"count", none, .word⟩]
  | modulate => [⟨"input", some 'i', .path⟩, ⟨"output", some 'o', .path⟩]
  | demodulate => [⟨"input", some 'i', .path⟩, ⟨"output", some 'o', .path⟩]
  | config => []

end CommandName

def required (given : Given) (name : String) : Except UsageError String :=
  match given.lookup name with
  | some value => .ok value
  | none => .error (.missingOption name)

def byteOf (value : String) : UInt8 := (OptionKind.byte? value.toList).getD 0

def wordOf (value : String) : UInt64 := (OptionKind.word? value.toList).getD 0

def defaultChunk : UInt64 := 1000

def CommandName.withOptions (given : Given) : CommandName → Except UsageError Command
  | .send => do
    let input := given.lookup "input"
    let text := given.lookup "text"
    if input.isSome && text.isSome then throw (.conflict "input" "text")
    let chunk := ((given.lookup "chunk").map wordOf).getD defaultChunk
    return .send (byteOf (← required given "to")) input text chunk
  | .receive =>
    .ok (.receive (given.lookup "output") (((given.lookup "timeout-secs").map wordOf).getD 0)
      ((given.lookup "count").map wordOf))
  | .modulate => return .modulate (← required given "input") (← required given "output")
  | .demodulate => return .demodulate (← required given "input") (given.lookup "output")
  | .config => .ok .config

def helpOn : List String → Except UsageError Request
  | [] => .ok .help
  | [name] =>
    if name = "help" ∨ (CommandName.ofText? name).isSome then .ok .help else .error (.unknownCommand name)
  | _ :: other :: _ => .error (.unknownCommand other)

/-- An option after the command overrides the same option before it. -/
def ofGiven (before after : Given) (name : CommandName) : Except UsageError Arguments := do
  let either (option : String) := (after.lookup option).or (before.lookup option)
  return {
    config := either "config"
    address := (either "address").map byteOf
    loopback := (either "loopback").isSome
    command := ← name.withOptions after }

def parse (args : List String) : Except UsageError Request := do
  match ← OptionSpec.parse (version :: general) [] args with
  | (_, .help) => return .help
  | (_, .version) => return .version
  | (_, .all) => throw .missingCommand
  | (before, .word word rest) =>
    if word = "help" then helpOn rest
    else match CommandName.ofText? word with
      | none => throw (.unknownCommand word)
      | some name => match ← OptionSpec.parse (general ++ name.options) [] rest with
        | (_, .help) => return .help
        | (_, .version) => return .version
        | (_, .word word _) => throw (.unexpectedWord word)
        | (after, .all) => return .run (← ofGiven before after name)

end Arguments

end SoundLink
