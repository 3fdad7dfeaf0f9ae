import LC3.Command.Execution
import LC3.Console.Feed

/-!
# A session: the command and the reader of its input

The command does not have its input when it starts. The reader of the stream
passes on what it reads while the machine carries out instructions, and may
have its turns between any two of them. The machine looks at what has arrived
when it polls or reads, and the command takes it all when `roundLength`
instructions are done since it did so last. `Loop` says how such a session
can go. An instruction that has to wait for input is carried out when there
is some.

`execute` is the session in which the reader has no turn: all input has
arrived before.
-/

namespace LC3.Command

/-- Takes the input that has arrived, if it is time for that when `steps`
instructions are done. -/
def look (steps : Nat) (machine : Machine Pipe) : Machine Pipe :=
  if steps % roundLength = 0 then { machine with console := machine.console.pump } else machine

/-- When `steps` instructions are done, `machine` and the reader of its input
can go on so that the session comes to the given ending and leaves the
machine `final`. -/
inductive Loop : Nat → Reader → Machine Pipe → Ending → Machine Pipe → Prop where
  /-- The reader has a turn. -/
  | turn {steps : Nat} {reader reader' : Reader} {machine final : Machine Pipe} {p : Pipe}
    {ending : Ending} (h : reader.turn? machine.console = some (reader', p))
    (rest : Loop steps reader' { machine with console := p } ending final) :
    Loop steps reader machine ending final
  /-- An instruction is done, and the machine can go on. -/
  | step {steps : Nat} {reader : Reader} {machine next final : Machine Pipe} {ending : Ending}
    (h : machine.step = (.running, next))
    (rest : Loop (steps + 1) reader (look (steps + 1) next) ending final) :
    Loop steps reader machine ending final
  /-- The machine halts or faults. -/
  | stop {steps : Nat} {reader : Reader} {machine final : Machine Pipe} {outcome : Outcome}
    {ending : Ending} (h : machine.step = (outcome, final))
    (ends : Ending.ofOutcome? outcome = some ending) : Loop steps reader machine ending final

/-- What a session leaves to the outside that has started like this, with the
reader of its input. -/
inductive Start.Leaves (reader : Reader) : Start → Result → Prop where
  | ended {result : Result} : Leaves reader (.over result) result
  | ran {machine final : Machine Pipe} {ending : Ending} (h : Loop 0 reader machine ending final) :
    Leaves reader (.ready machine) (.ofMachine final ending)

end LC3.Command
