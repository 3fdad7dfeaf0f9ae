import LC3.Command.Options
import LC3.Command.Ending
import LC3.Console.Pipe
import LC3.Machine
import LC3.Pattern.Search

/-!
# From arguments to a loaded machine

Every image argument stands for the paths that are found for it, or for
itself if none are, so each contributes a path. The images are loaded in this
order over one machine, and the first that cannot be loaded ends the run
before an instruction is carried out. Each is announced before it is opened,
on the standard output that the machine is going to write to.
-/

namespace LC3.Command

/-- What a pattern is found to stand for; `none` if it is no pattern. -/
abbrev Finder (m : Type → Type) := String → m (Option Findings)

variable {m : Type → Type} [Monad m]

/-- Looks in a file system for what a pattern stands for. -/
def findIn (files : FileSystem m) : Finder m := fun text =>
  match Pattern.ofString? text with
  | none => return none
  | some pattern => some <$> pattern.search files

/-- The paths that an argument stands for, given what was found for it. -/
def pathsOf (arg : String) (found : Option Findings) : List String :=
  match (found.getD []).filterMap (·.toOption) with
  | [] => [arg]
  | paths => paths

/-- The paths that the arguments stand for, in order. -/
def imagePaths (find : Finder m) (args : List String) : m (List String) := do
  let paths ← args.mapM fun arg => return pathsOf arg (← find arg)
  return paths.flatten

/-- Prints what the command is about to do, unless the user wants the output
of the program alone. -/
def announce (options : Options) (word text : String) (console : Pipe) : Pipe :=
  if options.minimal then console else console.print (statusLine word text)

/-- A machine that images have been loaded over, and why the last of them
could not be loaded. -/
structure Launch where
  failure : Option LoadError := none
  machine : Machine Pipe

/-- Announces and loads the images at the paths, one after the other over the
same machine, up to the first that cannot be loaded. -/
def loadAll (files : FileSystem m) (options : Options) : List String → Machine Pipe → m Launch
  | [], machine => return { machine }
  | path :: rest, machine => do
    let console := announce options "Loading" ("target " ++ path) machine.console
    let machine := { machine with console }
    match machine.load (Image.ofFile path (← files.openFile path)) with
    | (.ok _, machine) => loadAll files options rest machine
    | (.error e, machine) => return { failure := some e, machine }

/-- The machine before the first image, set to what the user wants at traps
without a routine. -/
def blankMachine (options : Options) (input : Pipe) : Machine Pipe :=
  { Machine.initial input with ignoreUnknownTraps := options.unknownTrap = .ignore }

def launch (files : FileSystem m) (find : Finder m) (options : Options) (input : Pipe) :
    m Launch := do
  loadAll files options (← imagePaths find options.images) (blankMachine options input)

end LC3.Command
