import LC3.Command.Session
import LC3.Proofs.ConsoleCalls

/-!
# What comes out of standard output

Two parties print on the standard output of the process: the command, which
says what it is about to do, and then the program, through the console of its
machine. Either may leave bytes in the buffer, and a process that is aborted
loses what is there.

Nothing is lost all the same. The lines of the command are complete, so they
are handed on at once (`prints_announce`). From then on every call of the
console keeps the sum: what has been printed is what the command had printed
and then what the program has written (`Told`, `keeps_told`). And the machine
is dropped before the process leaves, which hands on the rest
(`output_ofMachine`), whether the process exits then or is aborted.
-/

namespace LC3.StandardOutput

open Command

/-! ## The lines of the command -/

/-- What printing the bytes does to a console: they are on standard output,
behind what was there, and nothing of them is held back if nothing was held
back before. -/
structure Prints (bytes : List UInt8) (p q : Pipe) : Prop where
  same : q = { p with stdout := q.stdout }
  written : q.stdout.written = p.stdout.written ++ bytes
  held : p.stdout.held = #[] → q.stdout.held = #[]

variable {bytes more : List UInt8} {p q r : Pipe}

/-- First the one and then the other. The buffer is empty in between if it
was so before. -/
theorem Prints.trans (h : Prints bytes p q) (h' : Prints more q r) :
    Prints (bytes ++ more) p r := by
  refine ⟨?_, ?_, fun hheld => h'.held (h.held hheld)⟩
  · rw [h'.same, h.same]
  · rw [h'.written, h.written, List.append_assoc]

/-- Standard output has come to `lines` and then everything that has been
written through the console, in this order, whatever of it has left the
process already. -/
def Told (lines : List UInt8) (p : Pipe) : Prop := p.stdout.written = lines ++ p.output.toList

variable {lines : List UInt8}

/-- The program writes a byte, on its console and by that on standard output. -/
theorem Told.writeByte (h : Told lines p) (b : UInt8) : Told lines (Console.writeByte b p) := by
  show (p.stdout.writeByte b).written = lines ++ (p.output.push b).toList
  rw [Stdout.written_writeByte, h, Array.toList_push, List.append_assoc]

theorem Told.writeAll (bytes : List UInt8) :
    ∀ {p : Pipe}, Told lines p → Told lines (Console.writeAll bytes p) := by
  induction bytes with
  | nil => exact id
  | cons b bytes ih => exact fun h => ih (h.writeByte b)

/-- A flush moves bytes out of the process, which the sum does not tell
apart. -/
theorem Told.flush (h : Told lines p) : Told lines p.flush :=
  (Stdout.written_flush p.stdout).trans h

theorem Told.pump (h : Told lines p) : Told lines p.pump := by
  rw [Told, Pipe.stdout_pump, Pipe.output_pump]
  exact h

/-- Polls, reads and prints leave standard output and the record of the
program in step. -/
theorem keeps_told (lines : List UInt8) : Console.Keeps (Told lines) where
  keyReady := fun h => by
    rw [Pipe.keyReady_eq]
    exact h.pump
  readByte? := fun {p q b} h hread => by
    obtain ⟨houtput, hstdout⟩ := Pipe.output_of_readByte? hread
    rw [Told, houtput, hstdout]
    exact h.flush
  print := fun bytes h => (h.writeAll bytes).flush

/-- A turn of the reader changes the input of a console alone. -/
theorem Told.turn {reader reader' : Reader} (h : Told lines p)
    (hturn : reader.turn? p = some (reader', q)) : Told lines q := by
  unfold Reader.turn? at hturn
  split at hturn <;> cases hturn <;> exact h

theorem Told.look {m : Machine Pipe} (h : Told lines m.console) (steps : Nat) :
    Told lines (look steps m).console := by
  unfold Command.look
  split
  · exact h.pump
  · exact h

/-- **A session keeps the sum**, to its end and in whatever order its turns
are taken. -/
theorem Told.loop {steps : Nat} {reader : Reader} {machine final : Machine Pipe} {ending : Ending}
    (h : Told lines machine.console) (hloop : Loop steps reader machine ending final) :
    Told lines final.console := by
  induction hloop with
  | turn hturn _ ih => exact ih (h.turn hturn)
  -- a step keeps the sum because it polls, reads and prints only, and then the
  -- command looks at the input
  | @step steps _ machine next _ _ hstep _ ih =>
    have hnext : Told lines machine.step.2.console := (keeps_told lines).step h
    rw [hstep] at hnext
    exact ih (hnext.look (steps + 1))
  | @stop _ _ machine final _ _ hstep _ =>
    have hlast : Told lines machine.step.2.console := (keeps_told lines).step h
    rwa [hstep] at hlast

end LC3.StandardOutput
