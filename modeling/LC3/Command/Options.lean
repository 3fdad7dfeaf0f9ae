/-!
# The command line

Reads the arguments from left to right. The first mistake, request for help
or request for the version decides; what stands behind it is not looked at.
The variable for unknown traps counts only where no argument says what to do
about them, and only then can it be wrong.
-/

namespace LC3.Command

/-- What to do when a program calls a trap that has no routine. -/
inductive UnknownTrap where
  | fail
  | ignore
  deriving DecidableEq, Repr

/-- What a run of the program is asked to do. -/
structure Options where
  /-- Images or patterns for images, in the order they are loaded in. -/
  images : List String
  /-- Write nothing but what the program writes. -/
  minimal : Bool
  unknownTrap : UnknownTrap
  deriving DecidableEq, Repr

inductive Request where
  | help
  | version
  | run (options : Options)
  deriving DecidableEq, Repr

inductive UsageError where
  | unknown (arg : String)
  | repeated (option : String)
  | unexpectedValue (option : String)
  | missingValue (option : String)
  | invalidValue (option value : String)
  deriving DecidableEq, Repr

namespace UsageError

def message : UsageError → String
  | .unknown arg => "unexpected argument '" ++ arg ++ "' found"
  | .repeated option =>
    "the argument '" ++ option ++ "' cannot be used multiple times"
  | .unexpectedValue option => "unexpected value for '" ++ option ++ "' found; no more were expected"
  | .missingValue option =>
    "a value is required for '" ++ option ++ "' but none was supplied"
  | .invalidValue option value => "invalid value '" ++ value ++ "' for '" ++ option ++ "'"

end UsageError

def minimalOption : String := "--minimal"

def unknownTrapOption : String := "--unknown-trap"

def unknownTrapVariable : String := "LC3VM_UNKNOWN_TRAP"

def UnknownTrap.ofString? : String → Option UnknownTrap
  | "fail" => some .fail
  | "ignore" => some .ignore
  | _ => none

/-- What the arguments read so far have said. -/
structure Reading where
  /-- Images, the last one first. -/
  images : List String := []
  minimal : Bool := false
  unknownTrap : Option UnknownTrap := none

/-- How reading goes on after an argument. -/
inductive Progress where
  | more (reading : Reading)
  | done (request : Request)

namespace Reading

def addImage (r : Reading) (image : String) : Reading := { r with images := image :: r.images }

def setMinimal (r : Reading) : Except UsageError Reading :=
  if r.minimal then .error (.repeated minimalOption) else .ok { r with minimal := true }

def setUnknownTrap (r : Reading) (value : String) : Except UsageError Reading :=
  match UnknownTrap.ofString? value with
  | none => .error (.invalidValue unknownTrapOption value)
  | some unknownTrap =>
    if r.unknownTrap.isSome then .error (.repeated unknownTrapOption)
    else .ok { r with unknownTrap := some unknownTrap }

/-- Takes the letters after a single dash. -/
def letters (r : Reading) (arg : String) : List Char → Except UsageError Progress
  | [] => .ok (.more r)
  | 'm' :: rest => do letters (← r.setMinimal) arg rest
  | 'V' :: _ => .ok (.done .version)
  | 'h' :: _ => .ok (.done .help)
  | _ => .error (.unknown arg)

/-- Takes an option without a value of its own, and the value it is given
with `=`. -/
def word (r : Reading) (arg name : String) (value : Option String) : Except UsageError Progress :=
  let plain (progress : Except UsageError Progress) : Except UsageError Progress :=
    if value.isSome then .error (.unexpectedValue name) else progress
  if name = minimalOption then plain (return .more (← r.setMinimal))
  else if name = "--version" then plain (.ok (.done .version))
  else if name = "--help" then plain (.ok (.done .help))
  else .error (.unknown arg)

/-- Ends reading: the variable stands in for the option that is not given. -/
def finish (r : Reading) (fallback : Option String) : Except UsageError Request := do
  let unknownTrap ← match r.unknownTrap, fallback with
    | some unknownTrap, _ => .ok unknownTrap
    | none, none => .ok .fail
    | none, some value =>
      match UnknownTrap.ofString? value with
      | some unknownTrap => .ok unknownTrap
      | none => .error (.invalidValue unknownTrapOption value)
  return .run { images := r.images.reverse, minimal := r.minimal, unknownTrap }

end Reading

/-- An argument that starts with two dashes, split at its first `=`. -/
def splitValue (arg : String) : String × Option String :=
  let name := arg.toList.takeWhile (· ≠ '=')
  match arg.toList.dropWhile (· ≠ '=') with
  | [] => (arg, none)
  | _ :: value => (String.ofList name, some (String.ofList value))

def Reading.readAll (r : Reading) (fallback : Option String) :
    List String → Except UsageError Request
  | [] => r.finish fallback
  | arg :: rest =>
    if arg = "--" then (rest.foldl addImage r).finish fallback
    else if arg.startsWith "--" then
      match splitValue arg with
      | (name, value) =>
        if name = unknownTrapOption then
          match value, rest with
          | some value, rest => do (← r.setUnknownTrap value).readAll fallback rest
          | none, [] => .error (.missingValue unknownTrapOption)
          | none, value :: rest =>
            if value.startsWith "-" ∧ value ≠ "-" then .error (.missingValue unknownTrapOption)
            else do (← r.setUnknownTrap value).readAll fallback rest
        else do
          match ← r.word arg name value with
          | .more r => r.readAll fallback rest
          | .done request => return request
    else if arg.startsWith "-" ∧ arg ≠ "-" then do
      match ← r.letters arg (arg.toList.drop 1) with
      | .more r => r.readAll fallback rest
      | .done request => return request
    else (r.addImage arg).readAll fallback rest

/-- Reads the arguments of a run, with the value of the variable for unknown
traps. -/
def Request.ofArgs (args : List String) (fallback : Option String) : Except UsageError Request :=
  Reading.readAll {} fallback args

end LC3.Command
