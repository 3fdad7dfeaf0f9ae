import LC3.Proofs.Reads
import LC3.Proofs.Routines

/-!
# What a step writes

A poll writes the keyboard status register, and the data register if it
latches a key, whichever of the two the program asked for. A store writes one
word. Nothing else writes to memory, and no trap routine does.
`Machine.writes` lists the words, and the list is complete:

> `Machine.peek_step_of_notMem_writes`: a word that is not on the list stays
> as it is.
-/

namespace LC3

variable {κ : Type} [Console κ]

/-- The words that a poll writes that has found this: the data register only
if it is a key. -/
def latchWrites : Option UInt8 → List Word
  | none => [kbsr]
  | some _ => [kbsr, kbdr]

namespace Core

/-- The words that a read at `a` writes. -/
def readWrites (c : Core κ) (a : Word) : List Word :=
  if a = kbsr then latchWrites (Console.poll c.console).1 else []

/-- The words that carrying out an instruction writes, in order. -/
def writes (c : Core κ) : Instr → List Word
  | .ld _ offset => c.readWrites (c.regs.pc + offset)
  | .ldi _ offset =>
    let (pointer, d) := c.read (c.regs.pc + offset)
    c.readWrites (c.regs.pc + offset) ++ d.readWrites pointer
  | .ldr _ base offset => c.readWrites (c.regs.get base + offset)
  | .st _ offset => [c.regs.pc + offset]
  | .sti _ offset =>
    let (pointer, _) := c.read (c.regs.pc + offset)
    c.readWrites (c.regs.pc + offset) ++ [pointer]
  | .str _ base offset => [c.regs.get base + offset]
  | _ => []

/-- At the keyboard status register a read writes what its poll writes. -/
theorem readWrites_kbsr (c : Core κ) :
    c.readWrites kbsr = latchWrites (Console.poll c.console).1 := if_pos rfl

theorem readWrites_of_ne (c : Core κ) {a : Word} (h : a ≠ kbsr) : c.readWrites a = [] := if_neg h

end Core

namespace Machine

/-- The words that the next step writes, in order. -/
def writes (m : Machine κ) : List Word :=
  match m.status, m.word.decode with
  | .running, .instr i => m.toCore.readWrites m.regs.pc ++ m.fetched.writes i
  | .running, _ => m.toCore.readWrites m.regs.pc
  | _, _ => []

/-- Fetching writes first, if the program counter stands on the status
register, and then the instruction does. -/
theorem writes_of_instr {m : Machine κ} (hrun : m.status = .running) {i : Instr}
    (h : m.word.decode = .instr i) :
    m.writes = m.toCore.readWrites m.regs.pc ++ m.fetched.writes i := by
  rw [writes, hrun, h]

/-- No routine writes to memory, so a call writes what its fetch writes. -/
theorem writes_of_trap {m : Machine κ} (hrun : m.status = .running) {vector : UInt8}
    (h : m.word.decode = .trap vector) : m.writes = m.toCore.readWrites m.regs.pc := by
  rw [writes, hrun, h]

theorem writes_of_reserved {m : Machine κ} (hrun : m.status = .running) {opcode : UInt8}
    (h : m.word.decode = .reserved opcode) : m.writes = m.toCore.readWrites m.regs.pc := by
  rw [writes, hrun, h]

end Machine

/-- A poll leaves every word alone but the status register and, with a key,
the data register. -/
theorem Memory.peek_latch_of_notMem (mem : Memory) (key : Option UInt8) {b : Word}
    (h : b ∉ latchWrites key) : (mem.latch key).peek b = mem.peek b := by
  cases key with
  | none => exact (peek_write mem kbsr b 0).trans (if_neg (by simpa [latchWrites] using h))
  | some key =>
    obtain ⟨hs, hd⟩ : b ≠ kbsr ∧ b ≠ kbdr := by simpa [latchWrites] using h
    refine (peek_write _ kbdr b _).trans ((if_neg hd).trans ?_)
    exact (peek_write mem kbsr b _).trans (if_neg hs)

namespace Core

variable (c : Core κ)

omit [Console κ] in
theorem peek_store_of_notMem {a b : Word} (w : Word) (h : b ∉ [a]) :
    (c.store a w).mem.peek b = c.mem.peek b :=
  (Memory.peek_write c.mem a b w).trans (if_neg (by simpa using h))

/-- A read changes no word that its poll, if there is one, does not write. -/
theorem peek_read_of_notMem {a b : Word} (h : b ∉ c.readWrites a) :
    (c.read a).2.mem.peek b = c.mem.peek b := by
  by_cases ha : a = kbsr
  · subst ha
    rw [readWrites_kbsr] at h
    rw [read_kbsr, poll_eq]
    exact c.mem.peek_latch_of_notMem _ h
  · rw [read_of_ne c ha]

/-- The frame of an instruction. Only the two indirect ones have more than
one access, and their lists are the lists of the two in order. -/
theorem peek_exec_of_notMem {i : Instr} {b : Word} (h : b ∉ c.writes i) :
    (c.exec i).mem.peek b = c.mem.peek b := by
  cases i with
  | br nzp offset =>
    show (if _ then c else _).mem.peek b = _
    split <;> rfl
  | ld | ldr => exact c.peek_read_of_notMem h
  | ldi dst offset =>
    obtain ⟨hfirst, hsecond⟩ := not_or.1 (mt List.mem_append.2 h)
    exact ((c.read _).2.peek_read_of_notMem hsecond).trans (c.peek_read_of_notMem hfirst)
  | st | str => exact c.peek_store_of_notMem _ h
  | sti src offset =>
    obtain ⟨hfirst, hsecond⟩ := not_or.1 (mt List.mem_append.2 h)
    exact ((c.read _).2.peek_store_of_notMem _ hsecond).trans (c.peek_read_of_notMem hfirst)
  | add | and | not | lea | jmp | jsr | jsrr => rfl

end Core

/-- **Nothing is written beside the list.** One case for each kind of step:
the fetch may poll, an instruction may store, and no routine does either. -/
theorem Machine.peek_step_of_notMem_writes {m : Machine κ} {b : Word} (h : b ∉ m.writes) :
    m.step.2.mem.peek b = m.mem.peek b := by
  have hfetched : b ∉ m.toCore.readWrites m.regs.pc → m.fetched.mem.peek b = m.mem.peek b :=
    m.toCore.peek_read_of_notMem
  cases hstep : m.step with
  | mk o m' =>
    -- one case for each kind of step; what is left of each is the frame of its
    -- fetch and, for an instruction, of what it carries out
    cases stepsTo_iff.2 hstep with
    | halted | faulted => rfl
    | instr hm hdecode =>
      rw [writes_of_instr hm hdecode] at h
      obtain ⟨hfetch, hexec⟩ := not_or.1 (mt List.mem_append.2 h)
      exact (m.fetched.peek_exec_of_notMem hexec).trans (hfetched hfetch)
    | reserved hm hdecode =>
      rw [writes_of_reserved hm hdecode] at h
      exact hfetched h
    | ignored hm hdecode | unknown hm hdecode =>
      rw [writes_of_trap hm hdecode] at h
      exact hfetched h
    | @routine vector t hm hdecode =>
      rw [writes_of_trap hm hdecode] at h
      exact (congrArg (·.peek b) (Trap.mem_run t m.fetched.link)).trans (hfetched h)

end LC3
