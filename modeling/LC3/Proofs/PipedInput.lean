import LC3.Command.Execution
import LC3.Console.Pipe
import LC3.Console.Script
import LC3.Proofs.History
import LC3.Proofs.Lockstep

/-!
# Piped input is scripted input

A pipe holds its unread bytes in two places, and they move from one to the
other at any moment: when the machine polls, when it is between rounds, or
when something else asks for it. None of this can be seen by a program. Over
a pipe that has arrived whole and has ended, a machine does what the same
machine does over a script of the same bytes, for as long as the script has
the bytes that are read; past its end a script starves and a pipe answers
`Pipe.endOfInput`.

> `alike_feeds`: a script and an ended pipe with the same bytes unread answer
> alike, poll by poll and read by read;
> `execute_of_runFrom`: rounds with a pump after each are one run;
> `run_over_pipe`: the answers of any number of steps, whatever is called
> between them, and the end of a whole run.
-/

namespace LC3

/-- The machine with another console in the place of its own. -/
def Machine.over {κ κ' : Type} (m : Machine κ) (console : κ') : Machine κ' where
  regs := m.regs
  mem := m.mem
  console := console
  status := m.status
  ignoreUnknownTraps := m.ignoreUnknownTraps

namespace PipedInput

open History

/-! ## The consoles -/

/-- The pipe has ended, it has the bytes unread that the script has, and the
two have written the same since their outputs were `out` and `out'`; and this
is what has been printed on the standard output of the process since that was
at `printed`. -/
structure Feeds (out out' printed : List UInt8) (s : Script) (p : Pipe) : Prop where
  unread : p.unread = s.input
  closed : p.closed = true
  output : ∃ bytes, s.output.toList = out ++ bytes ∧ p.output.toList = out' ++ bytes ∧
    p.stdout.written = printed ++ bytes

variable {out out' printed : List UInt8} {s : Script} {p : Pipe}

/-- Where the unread bytes wait makes no difference. -/
theorem Feeds.pump (h : Feeds out out' printed s p) : Feeds out out' printed s p.pump := by
  refine ⟨?_, ?_, ?_⟩
  · rw [Pipe.unread_pump, h.unread]
  · rw [Pipe.closed_pump, h.closed]
  · rw [Pipe.output_pump, Pipe.stdout_pump]
    exact h.output

/-- A flush moves bytes out of the process, and none into it. -/
theorem Feeds.flush (h : Feeds out out' printed s p) : Feeds out out' printed s p.flush := by
  obtain ⟨bytes, hs, hp, hprinted⟩ := h.output
  exact ⟨h.unread, h.closed, bytes, hs, hp, (Stdout.written_flush p.stdout).trans hprinted⟩

/-- Every byte goes to the same place on both sides: behind what was written
before. -/
theorem Feeds.writeByte (h : Feeds out out' printed s p) (b : UInt8) :
    Feeds out out' printed (Console.writeByte b s) (Console.writeByte b p) := by
  obtain ⟨bytes, hs, hp, hprinted⟩ := h.output
  refine ⟨h.unread, h.closed, bytes ++ [b], ?_, ?_, ?_⟩
  · show (s.output.push b).toList = _
    rw [Array.toList_push, hs, List.append_assoc]
  · show (p.output.push b).toList = _
    rw [Array.toList_push, hp, List.append_assoc]
  · show (p.stdout.writeByte b).written = _
    rw [Stdout.written_writeByte, hprinted, List.append_assoc]

/-- **A script and a pipe that has ended answer alike**, as long as the
script has an answer. -/
theorem alike_feeds : Console.Alike (Feeds out out' printed) where
  keyReady := by
    intro s p h
    rw [Script.keyReady_eq, Pipe.keyReady_eq, h.unread]
    exact ⟨rfl, h.pump⟩
  readByte?_of_ready := fun _ hready => Script.readByte?_of_keyReady hready
  readByte? := by
    intro s p b s' h hread
    obtain ⟨hinput, hout⟩ := Script.readByte?_eq_some_iff.1 hread
    obtain ⟨p', hread', hunread, hclosed, hout', hstdout⟩ :=
      Pipe.readByte?_of_unread (h.unread.trans hinput)
    refine ⟨p', hread', hunread, hclosed.trans h.closed, ?_⟩
    -- the pipe flushes before it reads, and that the two have written the same is
    -- kept by a flush
    rw [hout, hout', hstdout]
    exact h.flush.output
  writeByte := fun b h => h.writeByte b
  flush := fun h => h.flush

/-! ## Steps -/

/-- What is called on a machine over a pipe. -/
inductive Call where
  | step
  | pump
  | attach
  deriving DecidableEq

/-- The machine after one call. -/
def Call.apply (m : Machine Pipe) : Call → Machine Pipe
  | .step => m.step.2
  | .pump => { m with console := m.console.pump }
  | .attach => { m with console := m.console.attach }

/-- What a call answers, if it is a step. -/
def Call.answer (m : Machine Pipe) : Call → List Outcome
  | .step => [m.step.1]
  | .pump | .attach => []

/-- What the steps among the calls answer, in order. -/
def answers (m : Machine Pipe) (calls : List Call) : List Outcome :=
  collected Call.apply Call.answer m calls

theorem alike_pump {m : Machine Script} {n : Machine Pipe}
    (h : Machine.Alike (Feeds out out' printed) m n) :
    Machine.Alike (Feeds out out' printed) m { n with console := n.console.pump } :=
  ⟨⟨h.regs, h.mem, h.console.pump⟩, h.status, h.ignoreUnknownTraps⟩

/-- Any mixture of calls: the steps among them answer what the script's
machine answers, in order, and the other calls change nothing that is
compared. By induction on the calls. -/
theorem alike_after (calls : List Call) : ∀ {m : Machine Script} {n : Machine Pipe},
    Machine.Alike (Feeds out out' printed) m n → .starved ∉ m.answers (calls.count .step) →
    answers n calls = m.answers (calls.count .step) ∧
      Machine.Alike (Feeds out out' printed) (m.steps (calls.count .step))
        (after Call.apply n calls) := by
  induction calls with
  | nil => exact fun h _ => ⟨rfl, h⟩
  | cons call calls ih =>
    intro m n h hstarved
    cases call with
    | step =>
      rw [List.count_cons_self] at hstarved ⊢
      -- the script has a byte for this step and for all later ones, since none of
      -- them starves
      obtain ⟨hfirst, hrest⟩ := not_or.1 (fun hor => hstarved (List.mem_cons.2 hor))
      obtain ⟨hanswer, hstep⟩ := h.step alike_feeds (Ne.symm hfirst)
      obtain ⟨hanswers, hafter⟩ := ih hstep hrest
      refine ⟨?_, hafter⟩
      show n.step.1 :: answers n.step.2 calls = m.step.1 :: _
      rw [hanswer, hanswers]
    | pump => exact ih (alike_pump h) hstarved
    | attach => exact ih h hstarved

/-! ## Rounds -/

/-- A round that leaves the machine running is followed by a pump and the
rounds that are left. -/
theorem execute_succ_of_running {n : Machine Pipe} (rounds : Nat)
    (h : (n.run Command.roundLength).outcome = .running) :
    Command.execute n (rounds + 1) =
      Command.execute { (n.run Command.roundLength).machine with
        console := (n.run Command.roundLength).machine.console.pump } rounds := by
  rw [Command.execute, Command.round]
  simp only [h]

/-- A round in which the machine ends is the last, and its outcome is that of
all rounds. -/
theorem execute_succ_of_ne {n : Machine Pipe} (rounds : Nat)
    (h : (n.run Command.roundLength).outcome ≠ .running) :
    Command.execute n (rounds + 1) =
      ((n.run Command.roundLength).outcome, (n.run Command.roundLength).machine) := by
  rw [Command.execute, Command.round]
  cases hout : (n.run Command.roundLength).outcome with
  | running => exact absurd hout h
  | halted | fault | starved | endless => rfl

/-- Rounds with a pump after each do what one run of all their steps does. By
induction on the rounds: a run that goes on behind a round is taken up by the
rounds that are left. -/
theorem execute_of_runFrom (rounds : Nat) : ∀ {m : Machine Script} {n : Machine Pipe} (i : Nat),
    Machine.Alike (Feeds out out' printed) m n →
    (m.runFrom i (rounds * Command.roundLength)).outcome ≠ .starved →
    (Command.execute n rounds).1 = (m.runFrom i (rounds * Command.roundLength)).outcome ∧
      Machine.Alike (Feeds out out' printed) (m.runFrom i (rounds * Command.roundLength)).machine
        (Command.execute n rounds).2 := by
  induction rounds with
  | zero =>
    intro m n i h _
    rw [Nat.zero_mul]
    exact ⟨rfl, h⟩
  | succ rounds ih =>
    intro m n i h hstarved
    have hsteps : (rounds + 1) * Command.roundLength =
        Command.roundLength + rounds * Command.roundLength := by
      rw [Nat.succ_mul, Nat.add_comm]
    rw [hsteps] at hstarved ⊢
    by_cases hrunning : (m.runFrom i Command.roundLength).outcome = .running
    -- the round is full, and the rest of the run is left to the rounds behind it
    · obtain ⟨houtcome, hmachine⟩ :=
        h.runFrom alike_feeds Command.roundLength i 0 (by rw [hrunning]; nofun)
      rw [Machine.runFrom_of_running _ hrunning] at hstarved ⊢
      rw [execute_succ_of_running rounds (houtcome.symm.trans hrunning)]
      exact ih _ (alike_pump hmachine) hstarved
    · -- the run ends within this round, so neither more steps nor more rounds matter
      rw [Machine.runFrom_add _ hrunning] at hstarved ⊢
      obtain ⟨houtcome, hmachine⟩ := h.runFrom alike_feeds Command.roundLength i 0 hstarved
      have hne : (n.run Command.roundLength).outcome ≠ .running :=
        fun hn => hrunning (houtcome.trans hn)
      rw [execute_succ_of_ne rounds hne]
      exact ⟨houtcome.symm, hmachine⟩

theorem alike_over (m : Machine Script) (p : Pipe) (hunread : p.unread = m.console.input)
    (hclosed : p.closed = true) :
    Machine.Alike (Feeds m.console.output.toList p.output.toList p.stdout.written) m
      (m.over p) := by
  have hfeeds : Feeds m.console.output.toList p.output.toList p.stdout.written m.console p :=
    ⟨hunread, hclosed, [], (List.append_nil _).symm, (List.append_nil _).symm,
      (List.append_nil _).symm⟩
  exact ⟨⟨rfl, rfl, hfeeds⟩, rfl, rfl⟩

/-- **Over a pipe that has ended a machine does what it does over a script of
the same bytes**, until the script starves. Its steps answer the same,
whatever is called between them, and it ends up the same, with the same bytes
unread and the same bytes written; and a run over the script that ends, ends
the same way when the command carries out the machine over the pipe. -/
theorem run_over_pipe (m : Machine Script) (p : Pipe) (hunread : p.unread = m.console.input)
    (hclosed : p.closed = true) :
    (∀ calls : List Call, .starved ∉ m.answers (calls.count .step) →
      answers (m.over p) calls = m.answers (calls.count .step) ∧
      Machine.Alike (Feeds m.console.output.toList p.output.toList p.stdout.written)
        (m.steps (calls.count .step)) (after Call.apply (m.over p) calls)) ∧
    ∀ limit, (m.run limit).outcome ≠ .running → (m.run limit).outcome ≠ .starved →
      ∃ enough, ∀ rounds ≥ enough,
        (Command.execute (m.over p) rounds).1 = (m.run limit).outcome ∧
        Machine.Alike (Feeds m.console.output.toList p.output.toList p.stdout.written)
          (m.run limit).machine (Command.execute (m.over p) rounds).2 := by
  have halike := alike_over m p hunread hclosed
  refine ⟨fun calls hstarved => alike_after calls halike hstarved, ?_⟩
  intro limit hrunning hstarved
  refine ⟨limit, ?_⟩
  intro rounds hrounds
  -- as many rounds as the run may take steps are steps enough, and more change nothing
  have hle : limit ≤ rounds * Command.roundLength := by
    rw [Command.roundLength]
    omega
  have hrun : m.runFrom 0 (rounds * Command.roundLength) = m.run limit := by
    rw [← Nat.add_sub_cancel' hle]
    exact Machine.runFrom_add _ hrunning
  have hexecute := execute_of_runFrom rounds 0 halike
  rw [hrun] at hexecute
  exact hexecute hstarved

/-- GETC at the last address and HALT behind it, at address 0, with two bytes
to read. -/
def keyThenHalt : Machine Script where
  regs := { Registers.initial with pc := 0xFFFF }
  mem := (Memory.zeroed.write 0xFFFF 0xF020).write 0 0xF025
  console := .ofInput [0x41, 0x42]

/-- The program counter runs over the end of memory: GETC at 0xFFFF, and then
HALT at 0. -/
theorem step_keyThenHalt :
    keyThenHalt.step.1 = .running ∧ keyThenHalt.step.2.step.1 = .halted := by
  have hpc : keyThenHalt.regs.pc ≠ kbsr := by decide
  obtain ⟨hword, hfetched⟩ := Machine.word_of_pc_ne hpc
  have hgetc : keyThenHalt.word.decode = .trap 0x20 := by
    have hpeek : keyThenHalt.mem.peek 0xFFFF = 0xF020 := by
      refine (Memory.peek_write _ 0 0xFFFF _).trans ?_
      rw [if_neg (by decide)]
      exact Memory.peek_write_self _ 0xFFFF _
    rw [hword]
    exact (congrArg Word.decode hpeek).trans (by decide)
  have hstep := Machine.step_of_routine (m := keyThenHalt) (t := .getc) rfl hgetc rfl
  rw [hfetched] at hstep
  have hrunning : keyThenHalt.step.1 = .running ∧ keyThenHalt.step.2.status = .running := by
    rw [hstep]
    exact ⟨rfl, rfl⟩
  have hnext : keyThenHalt.step.2.regs.pc = 0 ∧ keyThenHalt.step.2.mem = keyThenHalt.mem := by
    rw [hstep]
    exact ⟨rfl, rfl⟩
  refine ⟨hrunning.1, ?_⟩
  have hhalt : keyThenHalt.step.2.word.decode = .trap 0x25 := by
    rw [(Machine.word_of_pc_ne (by rw [hnext.1]; decide)).1, hnext.1, hnext.2]
    exact (congrArg Word.decode (Memory.peek_write_self _ 0 _)).trans (by decide)
  rw [Machine.step_of_routine (t := .halt) hrunning.2 hhalt rfl]
  rfl

/-- The byte that is read is pending when the machine starts, and the other
one is in the stream. -/
theorem run_over_pipe_keyThenHalt :
    Pipe.unread ⟨[0x41], [0x42], true, #[], {}⟩ = keyThenHalt.console.input ∧
    .starved ∉ keyThenHalt.answers 2 ∧ (keyThenHalt.run 2).outcome = .halted ∧
    answers (keyThenHalt.over (Pipe.mk [0x41] [0x42] true #[] {})) [.pump, .step, .attach, .step] =
      [.running, .halted] ∧
    ∃ enough, ∀ rounds ≥ enough,
      (Command.execute (keyThenHalt.over (Pipe.mk [0x41] [0x42] true #[] {})) rounds).1 =
        .halted := by
  obtain ⟨hgetc, hhalt⟩ := step_keyThenHalt
  have hanswers : keyThenHalt.answers 2 = [.running, .halted] := by
    rw [Machine.answers, Machine.answers, hgetc, hhalt]
    rfl
  have hstarved : .starved ∉ keyThenHalt.answers 2 := by
    rw [hanswers]
    decide
  have hrun : (keyThenHalt.run 2).outcome = .halted := by
    have hne : keyThenHalt.step.2.step.1 ≠ .running := by
      rw [hhalt]
      decide
    simp only [Machine.run, Machine.runFrom_succ_of_running 0 1 hgetc,
      Machine.runFrom_succ_of_ne 1 0 hne, hhalt]
  obtain ⟨hsteps, hruns⟩ :=
    run_over_pipe keyThenHalt (Pipe.mk [0x41] [0x42] true #[] {}) rfl rfl
  refine ⟨rfl, hstarved, hrun, ?_, ?_⟩
  · exact (hsteps [.pump, .step, .attach, .step] hstarved).1.trans hanswers
  · obtain ⟨enough, henough⟩ := hruns 2 (by rw [hrun]; decide) (by rw [hrun]; decide)
    refine ⟨enough, ?_⟩
    intro rounds hrounds
    exact (henough rounds hrounds).1.trans hrun

end PipedInput

end LC3
