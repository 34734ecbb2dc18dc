import SoundLink.Command.Program

namespace SoundLink.Terminal

def errorText (e : IO.Error) : String :=
  match e with
  | .noFileOrDirectory .. => "No such file or directory (os error 2)"
  | .permissionDenied .. => "Permission denied (os error 13)"
  | .inappropriateType .. => "Is a directory (os error 21)"
  | e => toString e

def attempt {α : Type} (act : IO α) : IO (Except String α) := do
  try return .ok (← act) catch e => return .error (errorText e)

/-- Waits in steps of a second, for ever if `seconds` is 0. -/
partial def pause (seconds : Nat) : IO Bool := do
  IO.sleep 1000
  if seconds = 1 then return true
  pause (seconds - 1)

def host (level : Level) : Host IO where
  load path := attempt do return (← IO.FS.readBinFile path).toList
  store path bytes := attempt (IO.FS.writeBinFile path (ByteArray.mk bytes.toArray))
  print := IO.println
  complain := IO.eprintln
  log e := if level.shows e.level then IO.println e.line else return
  clock := IO.monoMsNow
  pause := pause

end SoundLink.Terminal

open SoundLink

def main (args : List String) : IO UInt32 := do
  let level := ((← IO.getEnv "LOG_LEVEL").bind Level.ofName?).getD .info
  Program.run (Terminal.host level) args
