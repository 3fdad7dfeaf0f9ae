import LC3.Console.Script
import LC3.Proofs.History
import LC3.Proofs.Reads
import LC3.Proofs.Routines

/-!
# Input is neither lost nor doubled

A byte of input reaches the program on one of two ways: a trap routine puts
it into register 0, or a poll latches it in the keyboard data register. A
step reads memory up to three times, stores, and may call a routine, and any
of the reads may be a poll. Still it takes at most one byte:

- a poll by the fetch leaves nothing to do (`Machine.step_of_pc_eq_kbsr`);
- a pointer that a poll answered leads neither to the status register nor to
  the data register (`Core.read_kbsr_ne`), so the second access of an
  indirect instruction leaves the latch alone.

> `exec_input`: an instruction leaves the input as it is, or latches the byte
> it has taken, and then it has read the status register exactly once;
> `input_conserved`: over any steps, with input arriving between them in any
> way, what was taken and what is unread is what was there and what arrived,
> in order, and a step takes one byte at most.
-/

namespace LC3.InputQueue

open History

/-! ## One access -/

/-- The first byte of the input of `c` is off the queue and latched in the
keyboard registers. -/
structure Latched (c : Core Script) (b : UInt8) (d : Core Script) : Prop where
  input : c.console.input = b :: d.console.input
  status : d.mem.peek kbsr = 0x8000
  data : d.mem.peek kbdr = .ofByte b

theorem poll_nil {s : Script} (h : s.input = []) : Console.poll s = (none, s) := by
  obtain ⟨_, output⟩ := s
  subst h
  rfl

theorem poll_cons {s : Script} {b : UInt8} {input : List UInt8} (h : s.input = b :: input) :
    Console.poll s = (some b, { s with input }) := by
  obtain ⟨_, output⟩ := s
  subst h
  rfl

/-- Without input the poll of a core clears the status register, and the data
register keeps the key that it had. -/
theorem poll_eq_of_nil {c : Core Script} (h : c.console.input = []) :
    c.poll = { c with mem := c.mem.write kbsr 0 } := by
  rw [Core.poll_eq, poll_nil h]
  rfl

/-- With input the status register says that there is a key, and the data
register holds it. -/
theorem poll_eq_of_cons {c : Core Script} {b : UInt8} {input : List UInt8}
    (h : c.console.input = b :: input) :
    c.poll = { c with
      mem := (c.mem.write kbsr 0x8000).write kbdr (.ofByte b)
      console := { c.console with input } } := by
  rw [Core.poll_eq, poll_cons h]
  rfl

/-- A poll takes a byte if and only if it latches one. -/
theorem poll_input (c : Core Script) :
    c.poll.console = c.console ∨ ∃ b, Latched c b c.poll := by
  cases hinput : c.console.input with
  | nil =>
    left
    rw [poll_eq_of_nil hinput]
  | cons b rest =>
    right
    rw [poll_eq_of_cons hinput]
    refine ⟨b, hinput, ?_, ?_⟩
    · show ((c.mem.write kbsr 0x8000).write kbdr (.ofByte b)).peek kbsr = 0x8000
      rw [Memory.peek_write, if_neg (by decide), Memory.peek_write_self]
    · exact Memory.peek_write_self _ kbdr _

theorem read_kbsr_input (c : Core Script) :
    (c.read kbsr).2.console = c.console ∨ ∃ b, Latched c b (c.read kbsr).2 := by
  rw [Core.read_kbsr]
  exact poll_input c

/-- A store away from the keyboard registers leaves a latch as it is. -/
theorem Latched.store {c d : Core Script} {b : UInt8} (h : Latched c b d) {a w : Word}
    (hs : a ≠ kbsr) (hd : a ≠ kbdr) : Latched c b (d.store a w) := by
  refine ⟨h.input, ?_, ?_⟩
  · exact (Memory.peek_write d.mem a kbsr w).trans ((if_neg (Ne.symm hs)).trans h.status)
  · exact (Memory.peek_write d.mem a kbdr w).trans ((if_neg (Ne.symm hd)).trans h.data)

/-- A load takes a byte only if it is from the status register, and then the
byte is latched at its end: a load writes to a register and not to memory. -/
theorem load_input (c : Core Script) (dst : Reg) (a : Word) :
    ((c.read a).2.setResult dst (c.read a).1).console = c.console ∨
      (a = kbsr ∧ ∃ b, Latched c b ((c.read a).2.setResult dst (c.read a).1)) := by
  by_cases ha : a = kbsr
  · subst ha
    rcases read_kbsr_input c with h | ⟨b, h⟩
    · exact .inl h
    · exact .inr ⟨rfl, b, h.input, h.status, h.data⟩
  · left
    rw [Core.read_of_ne c ha]
    rfl

/-- **An instruction takes at most one byte.** If it takes one, it has polled
exactly once, and at its end the byte is still latched: neither a second read
nor a store has touched it. -/
theorem exec_input (c : Core Script) (i : Instr) :
    (c.exec i).console = c.console ∨
      ((c.reads i).count kbsr = 1 ∧ ∃ b, Latched c b (c.exec i)) := by
  cases i with
  | br nzp offset =>
    left
    show (if _ then c else _).console = _
    split <;> rfl
  | ld dst offset =>
    rcases load_input c dst (c.regs.pc + offset) with h | ⟨ha, h⟩
    · exact .inl h
    · exact .inr ⟨by rw [Core.reads, ha]; rfl, h⟩
  | ldr dst base offset =>
    rcases load_input c dst (c.regs.get base + offset) with h | ⟨ha, h⟩
    · exact .inl h
    · exact .inr ⟨by rw [Core.reads, ha]; rfl, h⟩
  | ldi dst offset =>
    simp only [Core.exec, Core.reads]
    by_cases ha : c.regs.pc + offset = kbsr
    · -- the pointer comes from a poll, so the word behind it is an ordinary one
      rw [ha, Core.read_of_ne (c.read kbsr).2 c.read_kbsr_ne.1, List.count_cons_self,
        List.count_eq_zero_of_not_mem (by simpa using Ne.symm c.read_kbsr_ne.1)]
      rcases read_kbsr_input c with h | ⟨b, h⟩
      · exact .inl h
      · exact .inr ⟨rfl, b, h.input, h.status, h.data⟩
    · rw [Core.read_of_ne c ha, List.count_cons_of_ne ha]
      rcases load_input c dst (c.mem.peek (c.regs.pc + offset)) with h | ⟨hp, h⟩
      · exact .inl h
      · exact .inr ⟨by rw [hp]; rfl, h⟩
  | sti src offset =>
    simp only [Core.exec, Core.reads]
    by_cases ha : c.regs.pc + offset = kbsr
    · -- again the pointer comes from a poll, so the store is away from the keyboard registers
      rw [ha]
      rcases read_kbsr_input c with h | ⟨b, h⟩
      · exact .inl h
      · exact .inr ⟨rfl, b, h.store c.read_kbsr_ne.1 c.read_kbsr_ne.2⟩
    · left
      rw [Core.read_of_ne c ha]
      rfl
  | add | and | not | lea | st | str | jmp | jsr | jsrr => exact .inl rfl

/-! ## One step -/

/-- A routine that takes a byte is one of the two that read, and puts it into
register 0. -/
theorem run_input (t : Trap) (c : Core Script) :
    (t.run c).2.console.input = c.console.input ∨
      (t = .getc ∨ t = .prompt) ∧ ∃ b, c.console.input = b :: (t.run c).2.console.input ∧
        (t.run c).2.regs.get 0 = .ofByte b := by
  cases t with
  | getc =>
    rw [Trap.run]
    cases hread : Console.readByte? c.console with
    | none => exact .inl rfl
    | some p =>
      obtain ⟨b, s⟩ := p
      refine .inr ⟨.inl rfl, b, (Script.readByte?_eq_some_iff.1 hread).1, ?_⟩
      exact (Registers.get_setResult _ 0 0 _).trans (if_pos rfl)
  | prompt =>
    simp only [Trap.run]
    cases hread : Console.readByte? (Trap.print Trap.promptText c).console with
    | none => exact .inl (Trap.input_print _ c)
    | some p =>
      obtain ⟨b, s⟩ := p
      refine .inr ⟨.inr trivial, b, ?_, ?_⟩
      · have hinput := (Script.readByte?_eq_some_iff.1 hread).1
        rw [Trap.input_print] at hinput
        refine hinput.trans (congrArg (b :: ·) ?_)
        exact (Trap.input_print [b] { Trap.print Trap.promptText c with console := s }).symm
      · exact (Registers.get_setResult _ 0 0 _).trans (if_pos rfl)
  | puts | putsp => exact .inl (Trap.input_printString _ c)
  | out | halt => exact .inl (Trap.input_print _ c)

/-- The byte `b` has come to the program by the step from `m` to `m'`: into
register 0 by a routine that reads, by a step that did not poll and left the
keyboard registers as they were, or into the keyboard registers by the one
poll of the step. -/
def Delivered (m : Machine Script) (b : UInt8) (m' : Machine Script) : Prop :=
  (m.word.opcode = 15 ∧ (m.word.toNat % 256 = 0x20 ∨ m.word.toNat % 256 = 0x23) ∧
    kbsr ∉ m.reads ∧ m'.regs.get 0 = .ofByte b ∧
    m'.mem.peek kbsr = m.mem.peek kbsr ∧ m'.mem.peek kbdr = m.mem.peek kbdr) ∨
  (m.reads.count kbsr = 1 ∧ m'.mem.peek kbsr = 0x8000 ∧ m'.mem.peek kbdr = .ofByte b)

/-- The input of `m` is left as it is in `m'`, or its first byte has come to
the program. -/
def Takes (m m' : Machine Script) : Prop :=
  m'.console.input = m.console.input ∨
    ∃ b, m.console.input = b :: m'.console.input ∧ Delivered m b m'

/-- A byte that is latched by the one poll of a step has come to the program. -/
theorem takes_of_latched {m m' : Machine Script} {b : UInt8} (h : Latched m.toCore b m'.toCore)
    (hreads : m.reads.count kbsr = 1) : Takes m m' :=
  .inr ⟨b, h.input, .inr ⟨hreads, h.status, h.data⟩⟩

variable {m : Machine Script}

/-- A poll by the fetch: what it answers leaves the rest of the step nothing
to do. -/
theorem takes_of_pc_eq_kbsr (hrun : m.status = .running) (hpc : m.regs.pc = kbsr) :
    Takes m m.step.2 := by
  -- the step is its fetch, and the fetch is its only read
  obtain ⟨hcore, hreads⟩ := Machine.step_of_pc_eq_kbsr hrun hpc
  rw [Machine.fetched, hpc] at hcore
  rcases read_kbsr_input m.toCore with h | ⟨b, h⟩
  · left
    rw [hcore]
    exact congrArg Script.input h
  · refine takes_of_latched (b := b) ?_ (by rw [hreads]; rfl)
    rw [hcore]
    exact ⟨h.input, h.status, h.data⟩

/-- Behind an ordinary fetch the instruction may poll, and then once. -/
theorem takes_of_instr (hrun : m.status = .running) (hpc : m.regs.pc ≠ kbsr) {i : Instr}
    (hdecode : m.word.decode = .instr i) : Takes m m.step.2 := by
  have hfetched : m.fetched.console = m.console := (Machine.frame_fetched hpc).2
  rw [Machine.step_of_instr hrun hdecode]
  rcases exec_input m.fetched i with h | ⟨hcount, b, h⟩
  · left
    rw [← hfetched, ← h]
  · refine takes_of_latched (b := b) ⟨?_, h.status, h.data⟩ ?_
    · rw [← hfetched]
      exact h.input
    · rw [Machine.reads_of_instr hrun hdecode, List.count_cons_of_ne hpc, hcount]

/-- Behind an ordinary fetch the routine may read. It writes no memory, so
the keyboard registers are as they were. -/
theorem takes_of_trap (hrun : m.status = .running) (hpc : m.regs.pc ≠ kbsr) {vector : UInt8}
    (hdecode : m.word.decode = .trap vector) : Takes m m.step.2 := by
  obtain ⟨hop, hlow⟩ := Word.decode_eq_trap_iff.1 hdecode
  -- the fetch was no poll, so the routine is called with the memory and the input of `m`
  obtain ⟨hmem, hconsole⟩ := Machine.frame_fetched hpc
  cases ht : Trap.ofVector? vector with
  | none =>
    left
    rw [Machine.step_of_unknown hrun hdecode ht, ← hconsole]
    split <;> rfl
  | some t =>
    have hnumber : t.number = m.word.toNat % 256 := by
      rw [Trap.number_of_ofVector? ht, ← hlow, Word.toNat_lowByte]
    rw [Machine.step_of_routine hrun hdecode ht]
    have hkept : (t.run m.fetched.link).2.mem = m.mem := (Trap.mem_run t _).trans hmem
    rcases run_input t m.fetched.link with h | ⟨hreads, b, hinput, hget⟩
    · left
      rw [← hconsole]
      exact h
    · refine .inr ⟨b, hconsole ▸ hinput, .inl ⟨hop, ?_, ?_, hget, ?_, ?_⟩⟩
      · rw [← hnumber]
        exact hreads.imp (fun h => by rw [h]; rfl) (fun h => by rw [h]; rfl)
      · rw [Machine.reads_of_trap hrun hdecode]
        exact fun h => hpc (List.mem_singleton.1 h).symm
      · exact congrArg (·.peek kbsr) hkept
      · exact congrArg (·.peek kbdr) hkept

/-- **A step takes at most one byte, and brings it to the program.** If the
fetch polls, nothing else does; if it does not, the instruction or the
routine may take a byte, and each of them one. -/
theorem takes_step (m : Machine Script) : Takes m m.step.2 := by
  cases hstatus : m.status with
  | halted => exact .inl (by rw [Machine.step_of_halted hstatus])
  | faulted f => exact .inl (by rw [Machine.step_of_faulted hstatus])
  | running =>
    by_cases hpc : m.regs.pc = kbsr
    · exact takes_of_pc_eq_kbsr hstatus hpc
    · cases hdecode : m.word.decode with
      | instr i => exact takes_of_instr hstatus hpc hdecode
      | trap vector => exact takes_of_trap hstatus hpc hdecode
      | reserved opcode =>
        left
        rw [Machine.step_of_reserved hstatus hdecode, (Machine.word_of_pc_ne hpc).2]
        rfl

/-! ## Runs -/

/-- The bytes that the next step takes off the front of the input. -/
def taken (m : Machine Script) : List UInt8 :=
  m.console.input.take (m.console.input.length - m.step.2.console.input.length)

/-- What may happen to a machine from outside. -/
inductive Event where
  | step
  | push (bytes : List UInt8)
  deriving DecidableEq

/-- The machine after one event. -/
def Event.apply (m : Machine Script) : Event → Machine Script
  | .step => m.step.2
  | .push bytes => { m with console := m.console.push bytes }

/-- The bytes that an event takes off the input. -/
def Event.takes (m : Machine Script) : Event → List UInt8
  | .step => taken m
  | .push _ => []

/-- The bytes that an event brings. -/
def Event.brings : Event → List UInt8
  | .step => []
  | .push bytes => bytes

/-- The bytes that the steps among the events take, in order. -/
def consumed (m : Machine Script) (events : List Event) : List UInt8 :=
  collected Event.apply Event.takes m events

/-- The bytes that the events bring, in order. -/
def pushed (events : List Event) : List UInt8 := events.flatMap Event.brings

/-- Taking from the front is all that a step does to its input. -/
theorem taken_append (m : Machine Script) :
    m.console.input = taken m ++ m.step.2.console.input ∧
      (taken m = [] ∨ ∃ b, taken m = [b] ∧ Delivered m b m.step.2) := by
  unfold taken
  -- the input has the same length, or is shorter by the byte at its front
  rcases takes_step m with h | ⟨b, h, hdelivered⟩
  · rw [h, Nat.sub_self]
    exact ⟨rfl, .inl rfl⟩
  · rw [h, List.length_cons, Nat.add_sub_cancel_left]
    exact ⟨rfl, .inr ⟨b, rfl, hdelivered⟩⟩

theorem length_taken_le (m : Machine Script) : (taken m).length ≤ 1 := by
  rcases (taken_append m).2 with h | ⟨b, h, -⟩
  · exact h ▸ Nat.zero_le 1
  · exact h ▸ Nat.le_refl 1

/-- One event neither loses input nor doubles it. -/
theorem takes_append (m : Machine Script) (event : Event) :
    event.takes m ++ (event.apply m).console.input = m.console.input ++ event.brings := by
  cases event with
  | step =>
    refine (taken_append m).1.symm.trans ?_
    exact (List.append_nil _).symm
  | push bytes => rfl

theorem consumed_append (m : Machine Script) (events : List Event) :
    consumed m events ++ (after Event.apply m events).console.input =
      m.console.input ++ pushed events :=
  collected_balance (·.console.input) takes_append events m

theorem length_consumed_le (m : Machine Script) (events : List Event) :
    (consumed m events).length ≤ events.count .step := by
  refine length_collected_le ?_ ?_ events m
  · intro m event
    cases event with
    | step => exact length_taken_le m
    | push bytes => exact Nat.zero_le 1
  · intro m event hne
    cases event with
    | step => cases hne
    | push bytes => rfl

/-- **Input is neither lost nor doubled nor moved about.** A step takes no
byte or the first one, and that one has come to the program; over any steps,
with input arriving between them in any way, what was taken and then what is
unread is what was unread at first and then what arrived. -/
theorem input_conserved :
    (∀ m : Machine Script, m.console.input = taken m ++ m.step.2.console.input ∧
      (taken m = [] ∨ ∃ b, taken m = [b] ∧ Delivered m b m.step.2)) ∧
    ∀ (m : Machine Script) (events : List Event),
      consumed m events ++ (after Event.apply m events).console.input =
        m.console.input ++ pushed events ∧
      (consumed m events).length ≤ events.count .step := by
  refine ⟨taken_append, ?_⟩
  intro m events
  exact ⟨consumed_append m events, length_consumed_le m events⟩

end LC3.InputQueue
