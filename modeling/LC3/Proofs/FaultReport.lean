import LC3.Console.Script
import LC3.Proofs.Finality
import LC3.Proofs.Reads

/-!
# Faults and what they report

A step ends in a fault at two kinds of word, and at no others: at one whose
opcode no instruction has, and at a call of a trap without a routine, if such
calls are not ignored. By the time the fault is reported the program counter
has moved on, and the fetch may have written the very word it has read,
because a fetch from the keyboard status register is a poll. The report is
right all the same: a poll leaves in memory what it answers, and a trap call
has not been fetched from there (`Machine.pc_ne_kbsr_of_trap`).

> `step_of_isReserved`, `step_of_isUnknownCall`: the two kinds of word;
> `accounted_step`: once a machine has stopped at a fault, memory has the
> word that the fault describes, and a machine that has stopped stays as it
> is;
> `faults_are_accurate`: when a step ends in a fault, what the fault says,
> and what is left.
-/

namespace LC3

namespace Word

/-- The opcode is one of the two that no instruction has. -/
def IsReserved (w : Word) : Prop := w.opcode = 8 ∨ w.opcode = 13

/-- The word calls a trap that has no routine, whatever bits 11 to 8 are. -/
def IsUnknownCall (w : Word) : Prop :=
  w.opcode = 15 ∧ (w.toNat % 256 < 0x20 ∨ 0x25 < w.toNat % 256)

/-- Two opcodes are reserved, and decoding keeps which of them it was. -/
theorem decode_eq_reserved_iff {w : Word} {opcode : UInt8} :
    w.decode = .reserved opcode ↔ w.IsReserved ∧ opcode = .ofNat w.opcode := by
  have hnum := toNat_toField_of w
  unfold decode IsReserved
  cases hop : Opcode.of w <;> rw [hop] at hnum <;> rw [← hnum]
  case rti | res =>
    rw [Decoded.reserved.injEq]
    exact ⟨fun h => ⟨by decide, h.symm⟩, fun h => h.2.symm⟩
  -- every other opcode has another number
  all_goals exact ⟨nofun, fun h => absurd h.1 (by decide)⟩

theorem ofVector?_lowByte_eq_none_iff {w : Word} :
    Trap.ofVector? w.lowByte = none ↔ w.toNat % 256 < 0x20 ∨ 0x25 < w.toNat % 256 := by
  rw [Trap.ofVector?_eq_none_iff, UInt8.lt_iff_toNat_lt, UInt8.lt_iff_toNat_lt, toNat_lowByte]
  rfl

/-- What the program finds when it decodes a word and looks up its vector. -/
theorem isUnknownCall_iff {w : Word} :
    w.IsUnknownCall ↔ w.decode = .trap w.lowByte ∧ Trap.ofVector? w.lowByte = none := by
  rw [decode_eq_trap_iff, ofVector?_lowByte_eq_none_iff]
  exact ⟨fun h => ⟨⟨h.1, rfl⟩, h.2⟩, fun h => ⟨h.1.1, h.2⟩⟩

theorem lowByte_eq_ofNat (w : Word) : w.lowByte = .ofNat (w.toNat % 256) := by
  apply UInt8.toNat_inj.1
  rw [toNat_lowByte, UInt8.toNat_ofNat', Nat.mod_mod]

end Word

namespace Fault

/-- Where the instruction is that the fault is about. -/
def addr : Fault → Word
  | .reservedOpcode _ _ addr | .unknownTrap _ addr => addr

/-- The fault says of the word what is so. -/
def Describes : Fault → Word → Prop
  | .reservedOpcode opcode instr _, w => w.IsReserved ∧ instr = w ∧ opcode.toNat = w.opcode
  | .unknownTrap vector _, w => w.IsUnknownCall ∧ vector.toNat = w.toNat % 256

end Fault

namespace FaultReport

variable {κ : Type} [Console κ]

/-- The console has a key ready, and one read from it gives the byte `b` and
leaves `s'`. -/
def Gives (s : κ) (b : UInt8) (s' : κ) : Prop :=
  ∃ ready, Console.keyReady s = (true, ready) ∧ Console.readByte? ready = some (b, s')

/-- The step has stopped at a reserved word. It has moved the program counter
and done nothing else, but for the poll if the word came out of one. -/
structure StopsAtReserved (m : Machine κ) (o : Outcome) (m' : Machine κ) : Prop where
  answer : o = .fault (.reservedOpcode (.ofNat m.word.opcode) m.word m.regs.pc)
  regs : m'.regs = { m.regs with pc := m.regs.pc.place 1 }
  stored : m'.mem.peek m.regs.pc = m.word
  away : m.regs.pc ≠ kbsr → m'.mem = m.mem ∧ m'.console = m.console
  polled : m.regs.pc = kbsr → m.word = 0x8000 ∧ ∃ b, Gives m.console b m'.console ∧
    m'.mem = (m.mem.write kbsr 0x8000).write kbdr (.ofByte b)

/-- The step has stopped at a call of an unknown trap. It has moved the
program counter and kept the link, and done nothing else. -/
structure StopsAtUnknown (m : Machine κ) (o : Outcome) (m' : Machine κ) : Prop where
  answer : o = .fault (.unknownTrap (.ofNat (m.word.toNat % 256)) m.regs.pc)
  pc : m'.regs.pc = m.regs.pc.place 1
  link : m'.regs.get 7 = m.regs.pc.place 1
  get : ∀ r : Reg, r ≠ 7 → m'.regs.get r = m.regs.get r
  cond : m'.regs.cond = m.regs.cond
  stored : m'.mem.peek m.regs.pc = m.word
  mem : m'.mem = m.mem
  console : m'.console = m.console

variable {m : Machine κ}

theorem not_isReserved_zero : ¬ (0 : Word).IsReserved := by
  unfold Word.IsReserved
  decide

/-- A poll that answers a reserved word has taken a byte: without one it
answers 0, which is a branch. -/
theorem exists_gives_of_poll {c : Core κ} (h : (c.poll.mem.peek kbsr).IsReserved) :
    c.poll.mem.peek kbsr = 0x8000 ∧ ∃ b, Gives c.console b c.poll.console ∧
      c.poll.mem = (c.mem.write kbsr 0x8000).write kbdr (.ofByte b) := by
  -- a poll that finds no key leaves 0, so the cases without a byte are excluded
  have hne : ∀ mem : Memory, ¬ ((mem.write kbsr 0).peek kbsr).IsReserved := by
    intro mem
    rw [Memory.peek_write_self]
    exact not_isReserved_zero
  refine ⟨c.peek_poll_kbsr.resolve_left fun hzero => ?_, ?_⟩
  · exact not_isReserved_zero (hzero ▸ h)
  · revert h
    unfold Core.poll
    cases hready : Console.keyReady c.console with
    | mk ready s =>
      cases ready with
      | false => exact fun h => absurd h (hne _)
      | true =>
        simp only
        cases hread : Console.readByte? s with
        | none => exact fun h => absurd h (hne _)
        | some r => exact fun _ => ⟨r.1, ⟨s, hready, hread⟩, rfl⟩

/-! ## The two kinds of word -/

/-- **A reserved word stops the machine with nothing done.** If it came out
of a poll it is the answer that there is a key, and the poll has latched the
key. -/
theorem step_of_isReserved (hrun : m.status = .running) (h : m.word.IsReserved) :
    StopsAtReserved m m.step.1 m.step.2 := by
  have hdecode := Word.decode_eq_reserved_iff.2 ⟨h, rfl⟩
  rw [Machine.step_of_reserved hrun hdecode]
  refine ⟨rfl, m.regs_fetched, m.peek_fetched, Machine.frame_fetched, ?_⟩
  intro hpc
  show m.word = 0x8000 ∧ ∃ b, Gives m.console b m.fetched.console ∧ m.fetched.mem = _
  rw [Machine.word, hpc, Core.read_kbsr] at h
  rw [Machine.word, Machine.fetched, hpc, Core.read_kbsr]
  exact exists_gives_of_poll h

/-- **A call of an unknown trap stops the machine behind its link**, if it is
not ignored. -/
theorem step_of_isUnknownCall (hrun : m.status = .running) (h : m.word.IsUnknownCall)
    (hstops : m.ignoreUnknownTraps = false) : StopsAtUnknown m m.step.1 m.step.2 := by
  obtain ⟨hdecode, ht⟩ := Word.isUnknownCall_iff.1 h
  rw [Machine.step_of_unknown hrun hdecode ht, hstops, if_neg Bool.false_ne_true]
  -- the word of a trap call was fetched without a poll
  obtain ⟨hmem, hconsole, -⟩ := Machine.link_of_trap hdecode
  have hregs := m.regs_fetched
  have hpc : m.fetched.regs.pc = m.regs.pc.place 1 := rfl
  refine ⟨?_, hpc, ?_, ?_, ?_, m.peek_fetched, hmem, hconsole⟩
  · rw [← Word.lowByte_eq_ofNat]
    rfl
  · exact (Registers.get_set_self _ 7 _).trans hpc
  · intro r hr
    refine (Registers.get_set _ 7 r _).trans ((if_neg hr).trans ?_)
    rw [hregs]
    rfl
  · show m.fetched.regs.cond = m.regs.cond
    rw [hregs]

/-- **There is no other way to hit a fault.** Of the kinds of step only two
answer one, and a routine that waits or has no end answers something else. -/
theorem step_eq_fault_iff (hrun : m.status = .running) :
    (∃ f, m.step.1 = .fault f) ↔
      m.word.IsReserved ∨ m.word.IsUnknownCall ∧ m.ignoreUnknownTraps = false := by
  constructor
  · intro ⟨f, hf⟩
    cases hstep : m.step with
    | mk o m' =>
      rw [hstep] at hf
      cases Machine.stepsTo_iff.2 hstep with
      | faulted hm => exact nomatch hrun.symm.trans hm
      | reserved _ hdecode => exact .inl (Word.decode_eq_reserved_iff.1 hdecode).1
      | unknown _ hdecode ht hstops =>
        obtain ⟨-, rfl⟩ := Word.decode_eq_trap_iff.1 hdecode
        exact .inr ⟨Word.isUnknownCall_iff.2 ⟨hdecode, ht⟩, hstops⟩
      | halted | instr | ignored => cases hf
      | @routine vector t => cases hend : (t.run m.fetched.link).1 <;> rw [hend] at hf <;> cases hf
  · rintro (h | ⟨h, hstops⟩)
    · exact ⟨_, (step_of_isReserved hrun h).answer⟩
    · exact ⟨_, (step_of_isUnknownCall hrun h hstops).answer⟩

/-- A fault that a step reports describes the word that is left at its
address. -/
theorem describes_of_step {f : Fault} (hrun : m.status = .running) (h : m.step.1 = .fault f) :
    f.Describes (m.step.2.mem.peek f.addr) := by
  -- for either kind of word the fault is the one that is reported, and its word is
  -- still in memory
  obtain hreserved | ⟨hunknown, hstops⟩ := (step_eq_fault_iff hrun).1 ⟨f, h⟩
  · have hstep := step_of_isReserved hrun hreserved
    obtain rfl := Outcome.fault.inj (h.symm.trans hstep.answer)
    have hnum : (UInt8.ofNat m.word.opcode).toNat = m.word.opcode := by
      rcases hreserved with hop | hop <;> rw [hop] <;> rfl
    rw [Fault.addr, hstep.stored]
    exact ⟨hreserved, rfl, hnum⟩
  · have hstep := step_of_isUnknownCall hrun hunknown hstops
    obtain rfl := Outcome.fault.inj (h.symm.trans hstep.answer)
    have hnum : (UInt8.ofNat (m.word.toNat % 256)).toNat = m.word.toNat % 256 := by
      rw [← Word.lowByte_eq_ofNat, Word.toNat_lowByte]
    rw [Fault.addr, hstep.stored]
    exact ⟨hunknown, hnum⟩

omit [Console κ] in
/-- If the machine has stopped at a fault, memory has the word that the fault
describes. -/
def Accounted (m : Machine κ) : Prop :=
  ∀ f, m.status = .faulted f → f.Describes (m.mem.peek f.addr)

/-- A machine that has stopped is left alone, and one that stops now leaves
the word it stopped at. -/
theorem accounted_step (h : Accounted m) : Accounted m.step.2 := by
  cases hm : m.status with
  | halted => rwa [Machine.step_of_halted hm]
  | faulted => rwa [Machine.step_of_faulted hm]
  | running =>
    intro f hf
    rw [Machine.status_step, Status.ofOutcome_eq_faulted_iff] at hf
    exact describes_of_step hm hf

theorem accounted_steps (h : Accounted m) (n : Nat) : Accounted (m.steps n) :=
  Machine.keeps_steps accounted_step h n

/-- However many steps there were before, a fault describes the word that is
left at its address. -/
theorem describes_of_steps (hfree : ∀ f, m.status ≠ .faulted f) {n : Nat} {f : Fault}
    (h : (m.steps n).step.1 = .fault f) : f.Describes ((m.steps (n + 1)).mem.peek f.addr) := by
  have haccounted : Accounted m := fun f hf => absurd hf (hfree f)
  refine accounted_steps haccounted (n + 1) f ?_
  rw [Machine.steps_succ, Machine.status_step, h]
  rfl

/-- **A fault occurs exactly when it should, and its report is accurate.** A
step of a running machine ends in a fault exactly if it fetches a reserved
word, or a call of an unknown trap that is not to be ignored; a step that
waits for input in vain is not one of these. In either case the fault names
the word and its address, and all but the program counter and the link is
left as it was, unless the fetch itself was a poll that took a byte. And so,
wherever a machine that has not hit a fault comes to hit one, by single steps
or by a run, the word that is left at the fault's address is the one that the
fault describes. -/
theorem faults_are_accurate (m : Machine κ) (hrun : m.status = .running) :
    ((∃ f, m.step.1 = .fault f) ↔
      m.word.IsReserved ∨ m.word.IsUnknownCall ∧ m.ignoreUnknownTraps = false) ∧
    (m.word.IsReserved → StopsAtReserved m m.step.1 m.step.2) ∧
    (m.word.IsUnknownCall → m.ignoreUnknownTraps = false →
      StopsAtUnknown m m.step.1 m.step.2) ∧
    ∀ m₀ : Machine κ, (∀ f, m₀.status ≠ .faulted f) →
      (∀ n f, (m₀.steps n).step.1 = .fault f →
        f.Describes ((m₀.steps (n + 1)).mem.peek f.addr)) ∧
      ∀ f m₁, Machine.handle.RunsTo m₀ (.fault f) m₁ → f.Describes (m₁.mem.peek f.addr) := by
  refine ⟨step_eq_fault_iff hrun, step_of_isReserved hrun, step_of_isUnknownCall hrun, ?_⟩
  intro m₀ hfree
  refine ⟨fun n f h => describes_of_steps hfree h, ?_⟩
  intro f m₁ h
  obtain ⟨k, -, hlast, rfl⟩ := Finality.exists_steps_of_runsTo h
  exact describes_of_steps hfree hlast

/-- The program counter is on the keyboard status register, and the key A is
waiting. -/
def polling : Machine Script := .about kbsr 0 (.ofInput [0x41])

/-- The key is waiting, so the poll answers that there is one. -/
theorem word_polling : polling.word = 0x8000 := by
  have hpoll : polling.toCore.poll.mem = (polling.mem.write kbsr 0x8000).write kbdr 0x41 := rfl
  show polling.toCore.poll.mem.peek kbsr = 0x8000
  rw [hpoll, Memory.peek_write, if_neg (by decide), Memory.peek_write_self]

/-- The poll answers 0x8000, which is no instruction. The fault says so, the
byte has been taken and latched, and 0x8000 is what the status register has
behind the step. -/
theorem faults_are_accurate_polling :
    polling.status = .running ∧ (∀ f, polling.status ≠ .faulted f) ∧ polling.word.IsReserved ∧
    polling.step.1 = .fault (.reservedOpcode 8 0x8000 0xFE00) ∧
    polling.step.2.regs.pc = 0xFE01 ∧ polling.step.2.console.input = [] ∧
    polling.step.2.mem.peek kbdr = 0x41 ∧
    (Fault.reservedOpcode 8 0x8000 0xFE00).Describes (polling.step.2.mem.peek 0xFE00) := by
  have hfree : ∀ f, polling.status ≠ .faulted f := fun f => nofun
  have hreserved : polling.word.IsReserved := by
    rw [word_polling]
    exact .inl (by decide)
  obtain ⟨-, hreports, -, hruns⟩ := faults_are_accurate polling rfl
  obtain ⟨hanswer, hregs, -, -, hpolled⟩ := hreports hreserved
  rw [word_polling] at hanswer
  obtain ⟨-, b, ⟨ready, hready, hread⟩, hmem⟩ := hpolled rfl
  -- the one byte of the input is the one that the poll has taken
  obtain rfl : ready = polling.console := (Prod.mk.inj hready).2.symm
  obtain ⟨rfl, hinput⟩ : 0x41 = b ∧ [] = polling.step.2.console.input :=
    List.cons.inj (Script.readByte?_eq_some_iff.1 hread).1
  refine ⟨rfl, hfree, hreserved, hanswer, ?_, hinput.symm, ?_, ?_⟩
  · rw [hregs]
    decide
  · rw [hmem, Memory.peek_write_self]
    rfl
  · have hdescribes := (hruns polling hfree).1 0 _ hanswer
    rw [Machine.steps_succ, Machine.steps] at hdescribes
    exact hdescribes

end FaultReport

end LC3
