import LC3.Proofs.Step

/-!
# What a step reads, and when it asks for input

A read of the keyboard status register is the one read that has an effect, so
it matters at which addresses a step reads and in which order: the fetch
first, then the address an instruction loads from, then, for the two indirect
instructions, what lies behind it. `Machine.reads` lists them. Two routines
scan a string besides, which is no read but depends on memory as well: up to
the first zero word, and on that (`Trap.Scans`). A step looks at no other
word (`Machine.LooksAt`).

Two routines read input without a poll. A step that does either asks the
console (`Machine.Asks`), and all other steps are the same over every
console.

Two facts carry everything that is said about polls:

> `Core.read_kbsr_ne`: what a poll answers is 0 or 0x8000, so a pointer that
> comes from a poll never leads back to the keyboard;
> `Machine.step_of_pc_eq_kbsr`: a machine that fetches such an answer does
> nothing with it.
-/

namespace LC3

variable {κ : Type} [Console κ]

/-- What a poll finds, and the console that it leaves: a byte if a key is
ready and can be read. -/
def Console.poll (s : κ) : Option UInt8 × κ :=
  match keyReady s with
  | (false, s) => (none, s)
  | (true, s) =>
    match readByte? s with
    | some (b, s) => (some b, s)
    | none => (none, s)

/-- The memory after a poll that has found this. -/
def Memory.latch (mem : Memory) : Option UInt8 → Memory
  | none => mem.write kbsr 0
  | some b => (mem.write kbsr 0x8000).write kbdr (.ofByte b)

namespace Core

/-- A poll in two parts, what it does to the console and what it does to
memory. Statements about either part need not look at the other. -/
theorem poll_eq (c : Core κ) :
    c.poll = { c with
      mem := c.mem.latch (Console.poll c.console).1
      console := (Console.poll c.console).2 } := by
  unfold poll Console.poll
  cases Console.keyReady c.console with
  | mk ready s =>
    cases ready with
    | false => rfl
    | true =>
      simp only
      cases Console.readByte? s <;> rfl

/-- The addresses that carrying out an instruction reads, in order. -/
def reads (c : Core κ) : Instr → List Word
  | .ld _ offset | .sti _ offset => [c.regs.pc + offset]
  | .ldi _ offset => [c.regs.pc + offset, (c.read (c.regs.pc + offset)).1]
  | .ldr _ base offset => [c.regs.get base + offset]
  | _ => []

/-- A poll answers 0 or 0x8000, which is the address of neither keyboard
register. A pointer that comes from there leads away from the keyboard. -/
theorem read_kbsr_ne (c : Core κ) : (c.read kbsr).1 ≠ kbsr ∧ (c.read kbsr).1 ≠ kbdr := by
  simp only [read_kbsr]
  rcases c.peek_poll_kbsr with h | h <;> rw [h] <;> decide

/-- An instruction that polls, polls once: it leaves the console that one
poll leaves. -/
theorem console_exec_of_mem (c : Core κ) {i : Instr} (h : kbsr ∈ c.reads i) :
    (c.exec i).console = c.poll.console := by
  cases i with
  | ld dst offset =>
    show (c.read (c.regs.pc + offset)).2.console = _
    rw [← List.mem_singleton.1 h, read_kbsr]
  | ldr dst base offset =>
    show (c.read (c.regs.get base + offset)).2.console = _
    rw [← List.mem_singleton.1 h, read_kbsr]
  | sti src offset =>
    show (c.read (c.regs.pc + offset)).2.console = _
    rw [← List.mem_singleton.1 h, read_kbsr]
  | ldi dst offset =>
    show ((c.read (c.regs.pc + offset)).2.read (c.read (c.regs.pc + offset)).1).2.console = _
    -- the pointer or what it points to is at the status register, never both
    by_cases ha : c.regs.pc + offset = kbsr
    · rw [ha, read_of_ne _ c.read_kbsr_ne.1, read_kbsr]
    · have hpointer := List.mem_singleton.1 ((List.mem_cons.1 h).resolve_left (Ne.symm ha))
      rw [← hpointer, read_of_ne c ha, read_kbsr]
  | br | add | and | not | lea | st | str | jmp | jsr | jsrr => exact absurd h List.not_mem_nil

end Core

namespace Machine

/-- The addresses that the next step reads, in order. -/
def reads (m : Machine κ) : List Word :=
  match m.status, m.word.decode with
  | .running, .instr i => m.regs.pc :: m.fetched.reads i
  | .running, _ => [m.regs.pc]
  | _, _ => []

theorem running_of_mem_reads {m : Machine κ} {a : Word} (h : a ∈ m.reads) :
    m.status = .running := by
  unfold reads at h
  cases hstatus : m.status with
  | running => rfl
  | halted | faulted =>
    rw [hstatus] at h
    exact absurd h List.not_mem_nil

theorem reads_of_instr {m : Machine κ} (hrun : m.status = .running) {i : Instr}
    (h : m.word.decode = .instr i) : m.reads = m.regs.pc :: m.fetched.reads i := by
  rw [reads, hrun, h]

/-- A call of a trap reads its own word and no other: the routines that look
at memory scan it. -/
theorem reads_of_trap {m : Machine κ} (hrun : m.status = .running) {vector : UInt8}
    (h : m.word.decode = .trap vector) : m.reads = [m.regs.pc] := by
  rw [reads, hrun, h]

/-- The machine stops at a reserved word, so nothing is read behind it. -/
theorem reads_of_reserved {m : Machine κ} (hrun : m.status = .running) {opcode : UInt8}
    (h : m.word.decode = .reserved opcode) : m.reads = [m.regs.pc] := by
  rw [reads, hrun, h]

/-- A running machine always fetches. -/
theorem pc_mem_reads {m : Machine κ} (hrun : m.status = .running) : m.regs.pc ∈ m.reads := by
  rw [reads, hrun]
  cases m.word.decode <;> exact List.mem_cons_self

/-- What a poll answers is a branch that is never taken, or a word that is no
instruction. Either way the step ends with the fetch. -/
theorem step_of_pc_eq_kbsr {m : Machine κ} (hrun : m.status = .running) (hpc : m.regs.pc = kbsr) :
    m.step.2.toCore = m.fetched ∧ m.reads = [kbsr] := by
  rcases word_of_pc_eq_kbsr hpc with hw | hw
  -- no key: the word 0 is a branch under no condition
  · have hdecode : m.word.decode = .instr (.br 0 0) := by
      rw [hw]
      decide
    refine ⟨?_, ?_⟩
    · rw [step_of_instr hrun hdecode]
      exact if_pos BitVec.and_zero
    · rw [reads_of_instr hrun hdecode, hpc]
      rfl
  -- a key: 0x8000 has the opcode of RTI
  · have hdecode : m.word.decode = .reserved 0x8 := by
      rw [hw]
      decide
    refine ⟨?_, ?_⟩
    · rw [step_of_reserved hrun hdecode]
      rfl
    · rw [reads_of_reserved hrun hdecode, hpc]

/-- An instruction that polls is fetched without a poll: the fetch leaves the
console alone. -/
theorem console_fetched_of_mem {m : Machine κ} (hrun : m.status = .running) {i : Instr}
    (hdecode : m.word.decode = .instr i) (h : kbsr ∈ m.fetched.reads i) :
    m.fetched.console = m.console := by
  have hpc : m.regs.pc ≠ kbsr := by
    intro hpc
    have hreads := reads_of_instr hrun hdecode
    rw [(step_of_pc_eq_kbsr hrun hpc).2, hpc] at hreads
    rw [← List.tail_eq_of_cons_eq hreads] at h
    exact absurd h List.not_mem_nil
  exact (frame_fetched hpc).2

end Machine

/-! ## The words that are looked at -/

/-- The scan of the string at `a` visits `b`: it gets there before any zero
word ends it. -/
def Memory.ScanVisits (mem : Memory) (a b : Word) : Prop :=
  ∃ j, b = a + BitVec.ofNat 16 j ∧ ∀ i < j, ¬ mem.EndsAt a i

/-- The routines that scan a string, and what they visit. -/
def Trap.Scans (t : Trap) (c : Core κ) (b : Word) : Prop :=
  (t = .puts ∨ t = .putsp) ∧ c.mem.ScanVisits (c.regs.get 0) b

namespace Machine

/-- The next step calls a routine that visits `b` in the string at register
0. -/
def Scans (m : Machine κ) (b : Word) : Prop :=
  m.status = .running ∧ ∃ vector t, m.word.decode = .trap vector ∧
    Trap.ofVector? vector = some t ∧ t.Scans m.toCore b

/-- The next step looks at the word at `b`. -/
def LooksAt (m : Machine κ) (b : Word) : Prop := b ∈ m.reads ∨ m.Scans b

/-- The word of a trap call was fetched without a poll, and the link has its
own register: the routine finds memory, console and register 0 as they were. -/
theorem link_of_trap {m : Machine κ} {vector : UInt8} (hdecode : m.word.decode = .trap vector) :
    m.fetched.link.mem = m.mem ∧ m.fetched.link.console = m.console ∧
      m.fetched.link.regs.get 0 = m.regs.get 0 := by
  rw [(word_of_pc_ne (pc_ne_kbsr_of_trap (Word.decode_eq_trap_iff.1 hdecode).1)).2]
  refine ⟨rfl, rfl, ?_⟩
  refine (Registers.get_set _ 7 0 _).trans ?_
  rw [if_neg (by decide)]
  rfl

/-- The routine is called with the link kept, the machine is seen before the
fetch. What it scans is the same, because neither memory nor register 0 has
changed in between. -/
theorem scans_of_routine {m : Machine κ} (hrun : m.status = .running) {vector : UInt8} {t : Trap}
    (hdecode : m.word.decode = .trap vector) (ht : Trap.ofVector? vector = some t) {b : Word}
    (h : t.Scans m.fetched.link b) : m.Scans b := by
  obtain ⟨hmem, -, hzero⟩ := link_of_trap hdecode
  refine ⟨hrun, vector, t, hdecode, ht, h.1, ?_⟩
  have hvisits := h.2
  rw [hmem, hzero] at hvisits
  exact hvisits

end Machine

/-! ## Asking for input -/

/-- The routines that read a byte of input. -/
def Trap.Asks (t : Trap) : Prop := t = .getc ∨ t = .prompt

/-- The routine reads from `s` when it is called with console `s₀`: one
routine writes before. -/
def Trap.ReadsFrom (t : Trap) (s₀ s : κ) : Prop :=
  t = .getc ∧ s = s₀ ∨ t = .prompt ∧ s = Console.flush (Console.writeAll promptText s₀)

namespace Machine

/-- The next step asks the console for input: it polls the keyboard, or calls
a routine that reads a byte. -/
def Asks (m : Machine κ) : Prop :=
  kbsr ∈ m.reads ∨ m.status = .running ∧ ∃ vector t, m.word.decode = .trap vector ∧
    Trap.ofVector? vector = some t ∧ t.Asks

/-- The next step calls a routine that reads from `s`. -/
def ReadsFrom (m : Machine κ) (s : κ) : Prop :=
  m.status = .running ∧ ∃ vector t, m.word.decode = .trap vector ∧
    Trap.ofVector? vector = some t ∧ t.ReadsFrom m.console s

/-- Without a byte to read there the step starves. So a step that does not
starve has been given every byte it has asked for. -/
theorem starved_of_readsFrom {m : Machine κ} {s : κ} (h : m.ReadsFrom s)
    (hnone : Console.readByte? s = none) : m.step.1 = .starved := by
  obtain ⟨hrun, vector, t, hdecode, ht, hreads⟩ := h
  rw [step_of_routine hrun hdecode ht]
  rw [← (link_of_trap hdecode).2.1] at hreads
  rcases hreads with ⟨rfl, rfl⟩ | ⟨rfl, rfl⟩
  · simp only [Trap.run, hnone]
    rfl
  · simp only [Trap.run, Trap.print, hnone]
    rfl

end Machine

end LC3
