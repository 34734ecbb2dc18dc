namespace SoundLink

inductive OptionKind
  | flag
  | text
  | path
  | byte
  | word
  | help
  | version
  deriving DecidableEq, Repr

structure OptionSpec where
  name : String
  short : Option Char
  kind : OptionKind

inductive UsageError
  | unknownOption (arg : String)
  | unexpectedWord (arg : String)
  | unknownCommand (name : String)
  | missingCommand
  | missingValue (name : String)
  | unexpectedValue (name : String)
  | invalidValue (name value : String)
  | repeated (name : String)
  | missingOption (name : String)
  | conflict (one other : String)
  deriving DecidableEq

def UsageError.message : UsageError → String
  | .unknownOption arg => s!"unexpected argument '{arg}' found"
  | .unexpectedWord arg => s!"unexpected argument '{arg}' found"
  | .unknownCommand name => s!"unrecognized subcommand '{name}'"
  | .missingCommand => "a subcommand is required"
  | .missingValue name => s!"a value is required for '--{name}' but none was supplied"
  | .unexpectedValue name => s!"unexpected value for '--{name}' found; no more were expected"
  | .invalidValue name value => s!"invalid value '{value}' for '--{name}'"
  | .repeated name => s!"the argument '--{name}' cannot be used multiple times"
  | .missingOption name => s!"the required argument '--{name}' was not provided"
  | .conflict one other => s!"the argument '--{one}' cannot be used with '--{other}'"

abbrev Given := List (String × String)

inductive OptionsEnd
  | all
  | help
  | version
  | word (arg : String) (rest : List String)

namespace OptionKind

def takesValue : OptionKind → Bool
  | .flag | .help | .version => false
  | .text | .path | .byte | .word => true

def natural? (digits : List Char) : Option Nat :=
  if digits = [] ∨ !digits.all Char.isDigit then none
  else some (digits.foldl (fun n c ↦ 10 * n + (c.toNat - 48)) 0)

def unsigned? : List Char → Option Nat
  | '+' :: digits => natural? digits
  | digits => natural? digits

def byte? : List Char → Option UInt8
  | '-' :: digits => if natural? digits = some 0 then some 0 else none
  | cs => (unsigned? cs).bind fun n ↦ if n < UInt8.size then some (UInt8.ofNat n) else none

def word? (cs : List Char) : Option UInt64 :=
  (unsigned? cs).bind fun n ↦ if n < UInt64.size then some (UInt64.ofNat n) else none

def accepts (value : String) : OptionKind → Bool
  | .path => value ≠ ""
  | .byte => (byte? value.toList).isSome
  | .word => (word? value.toList).isSome
  | _ => true

end OptionKind

namespace OptionSpec

def give (spec : OptionSpec) (given : Given) (value : String) : Except UsageError Given :=
  if (given.lookup spec.name).isSome then .error (.repeated spec.name)
  else if spec.kind.accepts value then .ok (given ++ [(spec.name, value)])
  else .error (.invalidValue spec.name value)

def isOption (arg : String) : Bool := arg.startsWith "-" && arg ≠ "-"

/-- An option, with the value attached to its name, if any: what is given then, the end of the
options if this is it, and how many further arguments it takes. -/
def apply (spec : OptionSpec) (given : Given) (attached : Option String) (next : Option String) :
    Except UsageError (Given × Option OptionsEnd × Nat) := do
  if spec.kind.takesValue then
    match attached, next with
    | some value, _ => return (← spec.give given value, none, 0)
    | none, some value =>
      if isOption value then throw (.missingValue spec.name)
      return (← spec.give given value, none, 1)
    | none, none => throw (.missingValue spec.name)
  else if attached.isSome then throw (.unexpectedValue spec.name)
  else match spec.kind with
    | .help => return (given, some .help, 0)
    | .version => return (given, some .version, 0)
    | _ => return (← spec.give given "", none, 0)

def splitValue (cs : List Char) : String × Option String :=
  (String.ofList (cs.takeWhile (· ≠ '=')), match cs.dropWhile (· ≠ '=') with
    | _ :: value => some (String.ofList value)
    | [] => none)

def attachedValue : List Char → Option String
  | [] => none
  | '=' :: value => some (String.ofList value)
  | value => some (String.ofList value)

def parse (specs : List OptionSpec) (given : Given) : List String → Except UsageError (Given × OptionsEnd)
  | [] => .ok (given, .all)
  | arg :: rest =>
    let taken (found : Option OptionSpec) (attached : Option String) :
        Except UsageError (Given × Option OptionsEnd × Nat) :=
      match found with
      | none => .error (.unknownOption arg)
      | some spec => spec.apply given attached rest.head?
    let outcome : Except UsageError (Given × Option OptionsEnd × Nat) := match arg.toList with
      | ['-', '-'] => match rest with
        | [] => .ok (given, some .all, 0)
        | word :: _ => .error (.unexpectedWord word)
      | '-' :: '-' :: cs =>
        let (name, attached) := splitValue cs
        taken (specs.find? (·.name = name)) attached
      | '-' :: c :: cs =>
        let found := specs.find? (·.short = some c)
        taken found (if found.all (·.kind.takesValue) then attachedValue cs else none)
      | _ => .ok (given, some (.word arg rest), 0)
    match outcome with
    | .error e => .error e
    | .ok (given, some stop, _) => .ok (given, stop)
    | .ok (given, none, n) => parse specs given (rest.drop n)
termination_by args => args.length

end OptionSpec

end SoundLink
