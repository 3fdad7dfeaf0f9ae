import LC3.Proofs.Reads
import LC3.Proofs.Routines

/-!
# What a step does to its console

A machine asks its console whether there is a key, reads from it, and prints
on it. Every print ends in a flush, so what a step does to its console is a
sequence of polls, reads and prints, whatever the program is. A property of
consoles that these three keep is therefore kept by every step and by every
run (`Console.Keeps.step`, `Console.Keeps.steps`), and nothing has to be
known about memory or registers to show that it is kept.
-/

namespace LC3

variable {κ : Type} [Console κ]

/-- Polls, reads and prints keep the property `I` of a console. -/
structure Console.Keeps (I : κ → Prop) : Prop where
  keyReady : ∀ {s : κ}, I s → I (Console.keyReady s).2
  readByte? : ∀ {s s' : κ} {b : UInt8}, I s → Console.readByte? s = some (b, s') → I s'
  print : ∀ {s : κ} (bytes : List UInt8), I s → I (Console.flush (Console.writeAll bytes s))

namespace Console.Keeps

variable {I : κ → Prop}

/-- A poll asks whether a key is ready and, if so, reads it. A console that
has announced a key and cannot give it is left as it was asked. -/
theorem poll (hI : Console.Keeps I) {s : κ} (h : I s) : I (Console.poll s).2 := by
  have hasked := hI.keyReady h
  unfold Console.poll
  cases hready : Console.keyReady s with
  | mk ready s' =>
    rw [hready] at hasked
    cases ready with
    | false => exact hasked
    | true =>
      simp only
      cases hread : Console.readByte? s' with
      | none => exact hasked
      | some answer => exact hI.readByte? hasked hread

/-- A read of memory is a poll at the keyboard status register, and nothing
to a console anywhere else. -/
theorem read (hI : Console.Keeps I) {c : Core κ} (h : I c.console) (a : Word) :
    I (c.read a).2.console := by
  by_cases ha : a = kbsr
  · rw [ha, Core.read_kbsr, Core.poll_eq]
    exact hI.poll h
  · rw [Core.read_of_ne c ha]
    exact h

/-- An instruction makes up to two reads of memory; nothing else of it comes
to the console. -/
theorem exec (hI : Console.Keeps I) {c : Core κ} (h : I c.console) (i : Instr) :
    I (c.exec i).console := by
  cases i with
  | br nzp offset =>
    show I (if _ then c else _).console
    split <;> exact h
  | ld | ldr | sti => exact hI.read h _
  | ldi => exact hI.read (hI.read h _) _
  | add | and | not | lea | st | str | jmp | jsr | jsrr => exact h

theorem printString (hI : Console.Keeps I) (encode : List Word → List UInt8) {c : Core κ}
    (h : I c.console) : I (Trap.printString encode c).2.console := by
  unfold Trap.printString
  split
  · exact hI.print _ h
  · exact h

/-- One case for each routine. IN prints before it reads and after it, so it
uses both facts. -/
theorem run (hI : Console.Keeps I) (t : Trap) {c : Core κ} (h : I c.console) :
    I (t.run c).2.console := by
  cases t with
  | getc =>
    simp only [Trap.run]
    split
    next b s hread => exact hI.readByte? h hread
    next => exact h
  | prompt =>
    have hprompt := hI.print Trap.promptText h
    simp only [Trap.run]
    split
    next b s hread => exact hI.print [b] (hI.readByte? hprompt hread)
    next => exact hprompt
  | puts | putsp => exact hI.printString _ h
  | out | halt => exact hI.print _ h

/-- **A property that polls, reads and prints keep is kept by every step.**
One case for each kind of step, behind a fetch that may have polled. -/
theorem step (hI : Console.Keeps I) {m : Machine κ} (h : I m.console) : I m.step.2.console := by
  have hfetched : I m.fetched.console := hI.read h m.regs.pc
  cases hstep : m.step with
  | mk o m' =>
    cases Machine.stepsTo_iff.2 hstep with
    | halted | faulted => exact h
    | instr => exact hI.exec hfetched _
    | reserved | ignored | unknown => exact hfetched
    | @routine vector t => exact hI.run (c := m.fetched.link) t hfetched

/-- Whatever the steps answer: a machine that has stopped keeps its
console. -/
theorem steps (hI : Console.Keeps I) {m : Machine κ} (h : I m.console) (n : Nat) :
    I (m.steps n).console :=
  Machine.keeps_steps (I := fun m => I m.console) (fun h => hI.step h) h n

end Console.Keeps

end LC3
