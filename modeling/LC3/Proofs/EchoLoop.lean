import LC3.Proofs.InputQueue
import LC3.Proofs.Overlay

/-!
# A program that echoes the keyboard

Seven words that poll the keyboard status register until a key is latched,
pick the key up from the data register, write it and start over. Input may
arrive between any two steps. The program loses none of it: what has been
written, then the key that is latched and not yet written, if there is one,
then what is unread is everything that has arrived.

Two things are kept by every step. `AtWork` is the account of the bytes.
`Stands` says where the program stands and what is true there, one case for
each place, with the key that is held and with a bound on the steps that are
left if nothing more arrives. The bound counts five steps for a key that is
unread, and what remains of the five for the one that is held. A turn of the
loop that finds no key costs nothing as long as there is none.

> `advances`: a step leads from one place to the next, and the bound goes
> down;
> `echoing_after`: so it is after any steps with any input between them;
> `echoes_every_key`: what has been written at any moment, and that
> everything gets written.
-/

namespace LC3.EchoLoop

open History (after keeps_carried carried_append)
open InputQueue (Event consumed pushed)

/-- LDI R0, KBSR; BRzp back; LDI R0, KBDR; OUT; BRnzp back; and the two
addresses. -/
def program : Image where
  origin := 0x3000
  words := [0xA004, 0x07FE, 0xA003, 0xF021, 0x0FFB, 0xFE00, 0xFE02]

/-- A new machine over a script with some input, with the program loaded. -/
def start (input : List UInt8) : Machine Script :=
  ((Machine.initial (Script.ofInput input)).load (Image.ofStream program.toStream)).2

/-- The words of the program are in memory. -/
def HasProgram (mem : Memory) : Prop :=
  ∀ a (h : program.Covers a), mem.peek a = program.wordAt a h

/-- The program is whole and the machine is running it, and what it has
written, the key that it holds and what it has not read are the bytes `sent`. -/
structure AtWork (m : Machine Script) (held : Option UInt8) (sent : List UInt8) : Prop where
  running : m.status = .running
  code : HasProgram m.mem
  tally : m.console.output.toList ++ held.toList ++ m.console.input = sent

/-- Where the program stands, with the key it holds and a bound on the steps
that are left. -/
inductive Stands (m : Machine Script) : Option UInt8 → Nat → Prop
  | asking (pc : m.regs.pc = 0x3000) : Stands m none (5 * m.console.input.length - 1)
  | noKey (pc : m.regs.pc = 0x3001) (cond : m.regs.cond = .z) :
    Stands m none (5 * m.console.input.length)
  | key {b : UInt8} (pc : m.regs.pc = 0x3001) (cond : m.regs.cond = .n)
    (data : m.mem.peek kbdr = .ofByte b) : Stands m (some b) (5 * m.console.input.length + 3)
  | pickingUp {b : UInt8} (pc : m.regs.pc = 0x3002) (data : m.mem.peek kbdr = .ofByte b) :
    Stands m (some b) (5 * m.console.input.length + 2)
  | writing {b : UInt8} (pc : m.regs.pc = 0x3003) (data : m.mem.peek kbdr = .ofByte b)
    (zero : m.regs.get 0 = .ofByte b) : Stands m (some b) (5 * m.console.input.length + 1)
  | returning (pc : m.regs.pc = 0x3004) : Stands m none (5 * m.console.input.length)

variable {m : Machine Script} {held : Option UInt8} {left : Nat} {sent : List UInt8}

/-- A key that is held is in the data register, so it can be picked up from
there. -/
theorem Stands.data (h : Stands m held left) : ∀ b ∈ held, m.mem.peek kbdr = .ofByte b := by
  intro b hb
  cases h with
  | asking | noKey | returning => exact nomatch hb
  | key _ _ data | pickingUp _ data | writing _ data _ => exact Option.some.inj hb ▸ data

/-- The bound is no more than five steps for each byte that is not written. -/
theorem Stands.left_le (h : Stands m held left) :
    left ≤ 5 * (held.toList.length + m.console.input.length) := by
  cases h <;> simp only [Option.toList, List.length_cons, List.length_nil] <;> omega

/-- Only a program that holds nothing and has read everything has no steps to
go. -/
theorem Stands.of_left_eq_zero (h : Stands m held left) (hleft : left = 0) :
    held = none ∧ m.console.input = [] := by
  rw [← List.length_eq_zero_iff]
  cases h with
  | asking | noKey | returning => exact ⟨rfl, by omega⟩
  | key | pickingUp | writing => omega

/-- Input that arrives moves nothing but the bound. -/
theorem Stands.push (h : Stands m held left) (bytes : List UInt8) :
    ∃ left', Stands { m with console := m.console.push bytes } held left' := by
  cases h with
  | asking pc => exact ⟨_, .asking pc⟩
  | noKey pc cond => exact ⟨_, .noKey pc cond⟩
  | key pc cond data => exact ⟨_, .key pc cond data⟩
  | pickingUp pc data => exact ⟨_, .pickingUp pc data⟩
  | writing pc data zero => exact ⟨_, .writing pc data zero⟩
  | returning pc => exact ⟨_, .returning pc⟩

/-- What arrives has arrived behind the bytes that were sent before, and
waits to be read. -/
theorem AtWork.push (h : AtWork m held sent) (bytes : List UInt8) :
    AtWork { m with console := m.console.push bytes } held (sent ++ bytes) := by
  refine ⟨h.running, h.code, ?_⟩
  rw [← h.tally]
  exact (List.append_assoc _ _ _).symm

/-! ## The program -/

namespace HasProgram

/-- The program is away from the keyboard registers, so fetching it is no
poll. -/
theorem ne_of_covers {a : Word} (h : program.Covers a) : a ≠ kbsr ∧ a ≠ kbdr := by
  constructor
  · rintro rfl
    exact absurd h (by decide)
  · rintro rfl
    exact absurd h (by decide)

/-- A poll leaves the program alone, for it writes to the keyboard registers
only. -/
theorem poll {c : Core Script} (h : HasProgram c.mem) : HasProgram c.poll.mem := by
  intro a ha
  obtain ⟨hs, hd⟩ := ne_of_covers ha
  rw [c.peek_poll hs hd]
  exact h a ha

/-- The last two words of the program are the addresses of the two registers. -/
theorem devices {mem : Memory} (h : HasProgram mem) :
    mem.peek 0x3005 = kbsr ∧ mem.peek 0x3006 = kbdr :=
  ⟨h 0x3005 (by decide), h 0x3006 (by decide)⟩

/-- The fetch at a place of the program finds its word, and moves on. -/
theorem fetch (h : HasProgram m.mem) {a next : Word} (hpc : m.regs.pc = a)
    (ha : program.Covers a) (hnext : a.place 1 = next) :
    m.word = program.wordAt a ha ∧ m.fetched = m.toCore.jump next := by
  subst hpc
  obtain ⟨hword, hfetched⟩ := Machine.word_of_pc_ne (ne_of_covers ha).1
  exact ⟨hword.trans (h _ ha), hnext ▸ hfetched⟩

end HasProgram

/-- A step carries out the word of the program that the program counter is
on, with the program counter past it. -/
theorem AtWork.step (h : AtWork m held sent) {a next : Word} (hpc : m.regs.pc = a)
    (ha : program.Covers a) (hnext : a.place 1 = next) {i : Instr}
    (hdecode : (program.wordAt a ha).decode = .instr i) :
    m.step = (.running, { m with toCore := (m.toCore.jump next).exec i }) := by
  obtain ⟨hword, hfetched⟩ := h.code.fetch hpc ha hnext
  rw [Machine.step_of_instr h.running (hword ▸ hdecode), hfetched]

/-- By way of a word that holds the address of a register, LDI reads that
register. -/
theorem exec_ldi {c : Core Script} {offset a device : Word} (ha : c.regs.pc + offset = a)
    (hne : a ≠ kbsr) (hdevice : c.mem.peek a = device) (dst : Reg) :
    c.exec (.ldi dst offset) = (c.read device).2.setResult dst (c.read device).1 := by
  have hpointer : c.read (c.regs.pc + offset) = (device, c) := by
    rw [ha, Core.read_of_ne c hne, hdevice]
  simp only [Core.exec, hpointer]

/-! ## One step from each place -/

/-- The next step is completed, and behind it the program is at work with one
step less to go. -/
def Advances (m : Machine Script) (left : Nat) (sent : List UInt8) : Prop :=
  ∃ m' held' left', m.step = (.running, m') ∧ AtWork m' held' sent ∧ Stands m' held' left' ∧
    left' ≤ left - 1

/-- A branch that is taken goes back to where the status register is asked. -/
theorem advances_back (h : AtWork m none sent) {a next : Word} (hpc : m.regs.pc = a)
    (ha : program.Covers a) (hnext : a.place 1 = next) {nzp : BitVec 3} {offset : Word}
    (hdecode : (program.wordAt a ha).decode = .instr (.br nzp offset))
    (htarget : next + offset = 0x3000) (hcond : m.regs.cond.bits &&& nzp ≠ 0) :
    Advances m (5 * m.console.input.length) sent := by
  have hstep := h.step hpc ha hnext hdecode
  have hexec : (m.toCore.jump next).exec (.br nzp offset) = m.toCore.jump 0x3000 := by
    refine (if_neg hcond).trans ?_
    show m.toCore.jump (next + offset) = _
    rw [htarget]
  rw [hexec] at hstep
  exact ⟨_, _, _, hstep, ⟨h.running, h.code, h.tally⟩, .asking rfl, Nat.le_refl _⟩

section Places

variable {b : UInt8}

/-- The status register is asked by way of the first of the two addresses. -/
theorem step_asking (h : AtWork m none sent) (hpc : m.regs.pc = 0x3000) :
    m.step = (.running, { m with toCore :=
      (m.toCore.jump 0x3001).poll.setResult 0 ((m.toCore.jump 0x3001).poll.mem.peek kbsr) }) := by
  have hdecode : (0xA004 : Word).decode = .instr (.ldi 0 4) := by decide
  have hnext : (0x3000 : Word).place 1 = 0x3001 := by decide
  have haddr : (m.toCore.jump 0x3001).regs.pc + 4 = 0x3005 := rfl
  have hdevice : (m.toCore.jump 0x3001).mem.peek 0x3005 = kbsr := h.code.devices.1
  rw [h.step hpc (by decide) hnext hdecode, exec_ldi haddr (by decide) hdevice 0, Core.read_kbsr]

/-- The poll finds no key if there is none, and else it takes the first one. -/
theorem advances_asking (h : AtWork m none sent) (hpc : m.regs.pc = 0x3000) :
    Advances m (5 * m.console.input.length - 1) sent := by
  have hstep := step_asking h hpc
  have hcode : HasProgram (m.toCore.jump 0x3001).poll.mem := HasProgram.poll h.code
  cases hinput : m.console.input with
  | nil =>
    -- without input the bound is 0 already, and it stays there
    rw [InputQueue.poll_eq_of_nil (c := m.toCore.jump 0x3001) hinput] at hstep hcode
    have hcond : Flag.of ((m.mem.write kbsr 0).peek kbsr) = .z := by
      rw [Memory.peek_write_self]
      rfl
    refine ⟨_, _, _, hstep, ⟨h.running, hcode, h.tally⟩, .noKey rfl ?_, ?_⟩
    · exact (Registers.cond_setResult _ 0 _).trans hcond
    · show 5 * m.console.input.length ≤ _
      rw [hinput]
      exact Nat.le_refl 0
  | cons b rest =>
    -- the first unread byte is the one that is held from now on
    rw [InputQueue.poll_eq_of_cons (c := m.toCore.jump 0x3001) hinput] at hstep hcode
    have hcond : Flag.of (((m.mem.write kbsr 0x8000).write kbdr (.ofByte b)).peek kbsr) = .n := by
      rw [Memory.peek_write, if_neg (by decide), Memory.peek_write_self]
      rfl
    refine ⟨_, some b, _, hstep, ⟨h.running, hcode, ?_⟩, .key rfl ?_ ?_, ?_⟩
    · show m.console.output.toList ++ [b] ++ rest = sent
      rw [← h.tally, hinput, Option.toList_none, List.append_nil]
      exact List.append_assoc _ [b] rest
    · exact (Registers.cond_setResult _ 0 _).trans hcond
    · exact Memory.peek_write_self _ kbdr _
    · show 5 * rest.length + 3 ≤ _
      rw [List.length_cons]
      omega

/-- Without a key the branch goes back, and the bound stays: a turn that
finds nothing is not counted. -/
theorem advances_noKey (h : AtWork m none sent) (hpc : m.regs.pc = 0x3001)
    (hcond : m.regs.cond = .z) : Advances m (5 * m.console.input.length) sent := by
  have hdecode : (0x07FE : Word).decode = .instr (.br 3 (-2)) := by decide
  have hbits : m.regs.cond.bits &&& 3 ≠ 0 := by
    rw [hcond]
    decide
  exact advances_back h hpc (by decide) rfl hdecode (by decide) hbits

/-- With a key it does not, because the status register had its highest bit
set. -/
theorem advances_key (h : AtWork m (some b) sent) (hpc : m.regs.pc = 0x3001)
    (hcond : m.regs.cond = .n) (hdata : m.mem.peek kbdr = .ofByte b) :
    Advances m (5 * m.console.input.length + 3) sent := by
  have hdecode : (0x07FE : Word).decode = .instr (.br 3 (-2)) := by decide
  have hnext : (0x3001 : Word).place 1 = 0x3002 := by decide
  have hstep := h.step hpc (by decide) hnext hdecode
  have hexec : (m.toCore.jump 0x3002).exec (.br 3 (-2)) = m.toCore.jump 0x3002 := by
    refine if_pos ?_
    show m.regs.cond.bits &&& 3 = 0
    rw [hcond]
    decide
  rw [hexec] at hstep
  exact ⟨_, _, _, hstep, ⟨h.running, h.code, h.tally⟩, .pickingUp rfl hdata, Nat.le_refl _⟩

/-- The data register is read and not polled, so the key stays there while it
is written. -/
theorem advances_pickingUp (h : AtWork m (some b) sent) (hpc : m.regs.pc = 0x3002)
    (hdata : m.mem.peek kbdr = .ofByte b) :
    Advances m (5 * m.console.input.length + 2) sent := by
  have hdecode : (0xA003 : Word).decode = .instr (.ldi 0 3) := by decide
  have hnext : (0x3002 : Word).place 1 = 0x3003 := by decide
  have hstep := h.step hpc (by decide) hnext hdecode
  have hexec : (m.toCore.jump 0x3003).exec (.ldi 0 3) =
      (m.toCore.jump 0x3003).setResult 0 (.ofByte b) := by
    have haddr : (m.toCore.jump 0x3003).regs.pc + 3 = 0x3006 := rfl
    have hdevice : (m.toCore.jump 0x3003).mem.peek 0x3006 = kbdr := h.code.devices.2
    rw [exec_ldi haddr (by decide) hdevice 0, Core.read_of_ne _ (by decide), ← hdata]
    rfl
  rw [hexec] at hstep
  have hget : ((m.regs.setResult 0 (.ofByte b)).get 0) = .ofByte b :=
    (Registers.get_setResult m.regs 0 0 (.ofByte b)).trans (if_pos rfl)
  exact ⟨_, _, _, hstep, ⟨h.running, h.code, h.tally⟩, .writing rfl hdata hget, Nat.le_refl _⟩

/-- The call writes the low half of register 0, which is the byte that was
latched. -/
theorem advances_writing (h : AtWork m (some b) sent) (hpc : m.regs.pc = 0x3003)
    (hzero : m.regs.get 0 = .ofByte b) : Advances m (5 * m.console.input.length + 1) sent := by
  have hnext : (0x3003 : Word).place 1 = 0x3004 := by decide
  obtain ⟨hword, hfetched⟩ := h.code.fetch hpc (by decide) hnext
  have hdecode : m.word.decode = .trap 0x21 := by
    rw [hword]
    decide
  have hstep := Machine.step_of_routine (t := .out) h.running hdecode rfl
  -- the call keeps its link in register 7, so register 0 still has the key
  have hlow : (m.fetched.link.regs.get 0).lowByte = b := by
    rw [(Machine.link_of_trap hdecode).2.2, hzero, Word.lowByte_ofByte]
  rw [Trap.run, hlow, hfetched, Trap.print_eq] at hstep
  refine ⟨_, none, _, hstep, ⟨rfl, h.code, ?_⟩, .returning rfl, Nat.le_refl _⟩
  show (m.console.output ++ [b]).toList ++ [] ++ m.console.input = sent
  rw [Array.toList_appendList, List.append_nil]
  exact h.tally

/-- The last branch asks for every sign, so it is always taken. -/
theorem advances_returning (h : AtWork m none sent) (hpc : m.regs.pc = 0x3004) :
    Advances m (5 * m.console.input.length) sent := by
  have hdecode : (0x0FFB : Word).decode = .instr (.br 7 (-5)) := by decide
  have hbits : m.regs.cond.bits &&& 7 ≠ 0 := by
    cases m.regs.cond <;> decide
  exact advances_back h hpc (by decide) rfl hdecode (by decide) hbits

end Places

/-- **A step leads from one place to the next**, and the bound goes down if
it can. -/
theorem advances (h : AtWork m held sent) (hstands : Stands m held left) :
    Advances m left sent := by
  cases hstands with
  | asking pc => exact advances_asking h pc
  | noKey pc cond => exact advances_noKey h pc cond
  | key pc cond data => exact advances_key h pc cond data
  | pickingUp pc data => exact advances_pickingUp h pc data
  | writing pc _ zero => exact advances_writing h pc zero
  | returning pc => exact advances_returning h pc

/-- The program is at work on the bytes `sent`, wherever it stands and
whatever it holds. -/
def Echoing (m : Machine Script) (sent : List UInt8) : Prop :=
  ∃ held left, AtWork m held sent ∧ Stands m held left

/-- Loading the bytes of the program places its words over an empty memory. -/
theorem start_eq (input : List UInt8) : start input =
    { Machine.initial (Script.ofInput input) with mem := Memory.zeroed.place program } :=
  Overlay.load_of_carries _ program.carries_toStream

theorem echoing_start (input : List UInt8) : Echoing (start input) input := by
  rw [start_eq]
  refine ⟨none, _, ⟨rfl, ?_, rfl⟩, .asking rfl⟩
  intro a ha
  exact Memory.peek_place_of_covers _ ha

/-- **One event keeps the program at work.** A step takes no byte out of the
account, and input that arrives is added at its end. -/
theorem Echoing.event (h : Echoing m sent) (event : Event) :
    Echoing (event.apply m) (sent ++ event.brings) := by
  obtain ⟨held, left, hwork, hstands⟩ := h
  cases event with
  | step =>
    obtain ⟨m', held', left', hstep, hwork', hstands', -⟩ := advances hwork hstands
    show Echoing m.step.2 (sent ++ [])
    rw [hstep, List.append_nil]
    exact ⟨held', left', hwork', hstands'⟩
  | push bytes =>
    obtain ⟨left', hstands'⟩ := hstands.push bytes
    exact ⟨held, left', hwork.push bytes, hstands'⟩

/-- However steps and input follow each other, the program stays at work. By
induction on the events, with the bytes that have been sent carried along. -/
theorem echoing_after (events : List Event) (h : Echoing m sent) :
    Echoing (after Event.apply m events) (sent ++ pushed events) := by
  have hkept := keeps_carried (I := Echoing) (fun event h => h.event event) events h
  rwa [carried_append] at hkept

/-- Without input, every step brings the end nearer. -/
theorem steps_advance (n : Nat) (h : AtWork m held sent) (hstands : Stands m held left) :
    ∃ held' left', AtWork (m.steps n) held' sent ∧ Stands (m.steps n) held' left' ∧
      left' ≤ left - n := by
  induction n with
  | zero => exact ⟨held, left, h, hstands, Nat.le_refl left⟩
  | succ n ih =>
    -- the induction is on the steps taken so far, and the last of them is taken
    -- from a known place
    obtain ⟨held₁, left₁, hwork₁, hstands₁, hle₁⟩ := ih
    obtain ⟨m', held₂, left₂, hstep, hwork₂, hstands₂, hle₂⟩ := advances hwork₁ hstands₁
    rw [Machine.steps_succ, hstep]
    exact ⟨held₂, left₂, hwork₂, hstands₂, by omega⟩

/-- At no more than five steps for each byte that is not written yet, all of
them are written. -/
theorem output_steps (h : AtWork m held sent) (hstands : Stands m held left) {n : Nat}
    (hn : left ≤ n) : (m.steps n).console.output.toList = sent := by
  obtain ⟨held', left', hwork, hstands', hle⟩ := steps_advance n h hstands
  -- no steps are left, so nothing is held or unread, and the account is the output
  -- alone
  obtain ⟨hheld, hinput⟩ := hstands'.of_left_eq_zero (by omega)
  have htally := hwork.tally
  rwa [hheld, hinput, Option.toList_none, List.append_nil, List.append_nil] at htally

/-- **Every key is echoed, once and in order.** After any steps with any
input between them the next step is completed, and there is at most one key
that has been taken and not been written: the one in the data register. What
has been written, this key and what is unread is all that has arrived, so the
output is the beginning of it; and it is all of it five steps later for each
byte that was missing, and from then on. -/
theorem echoes_every_key (input : List UInt8) (events : List Event) :
    let m := after Event.apply (start input) events
    let sent := input ++ pushed events
    let written := m.console.output.toList
    m.step.1 = .running ∧
    (∃ held : Option UInt8, consumed (start input) events = written ++ held.toList ∧
      (∀ b ∈ held, m.mem.peek kbdr = .ofByte b) ∧
      written ++ held.toList ++ m.console.input = sent) ∧
    written <+: sent ∧
    ∀ n, (m.steps (5 * (sent.length - written.length) + n)).console.output.toList = sent := by
  intro m sent written
  obtain ⟨held, left, hwork, hstands⟩ := echoing_after events (echoing_start input)
  have htally : written ++ held.toList ++ m.console.input = sent := hwork.tally
  refine ⟨?_, ⟨held, ?_, hstands.data, htally⟩, ?_, ?_⟩
  · obtain ⟨m', _, _, hstep, -⟩ := advances hwork hstands
    rw [hstep]
  · -- what is unread is left out on both sides
    apply List.append_cancel_right
    calc
      consumed (start input) events ++ m.console.input
      _ = (start input).console.input ++ pushed events := InputQueue.consumed_append _ events
      _ = sent := by rw [start_eq]; rfl
      _ = written ++ held.toList ++ m.console.input := htally.symm
  · rw [← htally, List.append_assoc]
    exact List.prefix_append ..
  · intro n
    have hleft : left ≤ 5 * (held.toList.length + m.console.input.length) := hstands.left_le
    have hlength : sent.length = written.length + held.toList.length + m.console.input.length := by
      rw [← htally, List.length_append, List.length_append]
    exact output_steps hwork hstands (by omega)

end LC3.EchoLoop
