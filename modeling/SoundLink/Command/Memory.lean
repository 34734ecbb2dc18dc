import SoundLink.Command.Program

namespace SoundLink

structure Memory where
  files : List (String × List UInt8)
  printed : List String := []
  logged : List LogEntry := []

namespace Memory

def steps (path : String) : List String := (path.splitOn "/").filter fun part ↦ part ≠ "" && part ≠ "."

def missing : String := "No such file or directory (os error 2)"

def isDirectory : String := "Is a directory (os error 21)"

def notDirectory : String := "Not a directory (os error 20)"

def contents? (s : Memory) (name : String) : Option (List UInt8) := s.files.lookup name

/-- The name of the file at a path, which need not exist. Nothing is found outside the directory. -/
def locate (s : Memory) (path : String) : Except String String :=
  if path.startsWith "/" then .error missing
  else match steps path with
  | [] => .error isDirectory
  | [name] =>
    if path.endsWith "/" then .error (if (s.contents? name).isSome then notDirectory else isDirectory)
    else .ok name
  | first :: _ => .error (if (s.contents? first).isSome then notDirectory else missing)

def load (s : Memory) (path : String) : Except String (List UInt8) :=
  match s.locate path with
  | .error cause => .error cause
  | .ok name => match s.contents? name with
    | some bytes => .ok bytes
    | none => .error missing

def store (path : String) (bytes : List UInt8) (s : Memory) : Except String Unit × Memory :=
  match s.locate path with
  | .error cause => (.error cause, s)
  | .ok name => (.ok (), { s with files := (name, bytes) :: s.files })

def host : Host (StateM Memory) where
  load path := return (← get).load path
  store path bytes := modifyGet (store path bytes)
  print line := modify fun s ↦ { s with printed := line :: s.printed }
  complain _ := return
  log e := modify fun s ↦ { s with logged := e :: s.logged }
  clock := return 0
  pause _ := return false

def run (files : List (String × List UInt8)) (args : List String) : UInt32 × Memory :=
  (Program.run host args).run ⟨files, [], []⟩

def output (s : Memory) : String := String.join (s.printed.reverse.map (· ++ "\n"))

end Memory

end SoundLink
