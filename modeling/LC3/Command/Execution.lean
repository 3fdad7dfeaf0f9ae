import LC3.Command.Launch

/-!
# Running the command

Runs a loaded machine in rounds and puts together what the outside sees.
Between rounds the input that has arrived is taken; that changes nothing
about what the machine reads.
-/

namespace LC3.Command

/-- How many instructions are carried out between two looks at the input. -/
def roundLength : Nat := 0x1000

/-- Carries out a round, and takes the input that has arrived if the machine
can go on. -/
def round (machine : Machine Pipe) : Outcome × Machine Pipe :=
  let run := machine.run roundLength
  match run.outcome with
  | .running => (.running, { run.machine with console := run.machine.console.pump })
  | outcome => (outcome, run.machine)

/-- Carries out rounds until one does not end `running`, at most `rounds`. -/
def execute (machine : Machine Pipe) : (rounds : Nat) → Outcome × Machine Pipe
  | 0 => (.running, machine)
  | rounds + 1 =>
    match round machine with
    | (.running, machine) => execute machine rounds
    | result => result

/-- What a run of the program leaves: its standard output and its ending. -/
structure Result where
  output : List UInt8
  ending : Ending

/-- What a process leaves that comes to this ending, with standard output as
it is then. -/
def Result.ofStdout (out : Stdout) (ending : Ending) : Result :=
  { output := ending.exit.output out, ending }

/-- What a process leaves when its machine has ended. The machine is dropped
before anything is reported, and so before the process exits or is aborted. -/
def Result.ofMachine (machine : Machine Pipe) (ending : Ending) : Result :=
  .ofStdout machine.console.drop.stdout ending

def versionText : String := "lc3vm 0.1.0\n"

def helpText : String :=
  "lc3vm runs binary LC3 program images\n\n" ++
  "Usage: lc3vm [OPTIONS] [IMAGES]...\n\n" ++
  "Arguments:\n" ++
  "  [IMAGES]...  `.obj` images (or glob patterns) to load in order; later images overwrite " ++
  "earlier ones\n\n" ++
  "Options:\n" ++
  "  -m, --minimal               Produce minimal output, suited for blackbox tests\n" ++
  "      --unknown-trap <WHAT>   What to do when the program calls a trap vector with no routine\n" ++
  "                              [env: LC3VM_UNKNOWN_TRAP] [default: fail]\n" ++
  "                              [possible values: fail, ignore]\n" ++
  "  -h, --help                  Print help\n" ++
  "  -V, --version               Print version\n"

/-- The ending that the answer of a machine stands for; `none` if it has not
ended. -/
def Ending.ofOutcome? : Outcome → Option Ending
  | .halted => some .halted
  | .fault f => some (.faulted f)
  | .running | .starved | .endless _ => none

/-- Where a run of the program stands when it has done what the arguments ask
for, up to the first instruction. -/
inductive Start where
  | over (result : Result)
  /-- The machine is loaded and has the console that the status lines are printed on. -/
  | ready (machine : Machine Pipe)

variable {m : Type → Type} [Monad m]

/-- The start of a run that has images to load. Without any it is over at
once, before a machine is made. -/
def startImages (files : FileSystem m) (find : Finder m) (options : Options) (input : Pipe) :
    m Start := do
  if options.images.isEmpty then return .over (.ofStdout {} .noImage)
  let ⟨failure, machine⟩ ← launch files find options input
  match failure with
  | some e => return .over (.ofStdout machine.console.stdout (.loadFailed e))
  | none =>
    let console := announce options "Running" "loaded images" machine.console
    return .ready { machine with console := console.attach }

/-- Does what the arguments ask for, up to the first instruction. -/
def start (files : FileSystem m) (find : Finder m) (request : Except UsageError Request)
    (input : Pipe) : m Start :=
  match request with
  | .error e => return .over (.ofStdout {} (.misused e))
  | .ok .help => return .over (.ofStdout (Stdout.print helpText {}) .informed)
  | .ok .version => return .over (.ofStdout (Stdout.print versionText {}) .informed)
  | .ok (.run options) => startImages files find options input

/-- Runs what has started for at most `rounds` rounds; `none` if it has not
ended then. -/
def Start.finish (rounds : Nat) : Start → Option Result
  | .over result => some result
  | .ready machine =>
    match execute machine rounds with
    | (outcome, machine) => (Ending.ofOutcome? outcome).map (.ofMachine machine)

end LC3.Command
