import LC3.Console.Script
import LC3.Interface
import LC3.Proofs.Overlay
import LC3.Proofs.UnreadInput
import LC3.Proofs.Writes

/-!
# A latched key stays latched

A read of the keyboard status register is the only thing that brings a key
into the data register, and it is also the only thing that takes one away
again: the next such read clears the status, or puts another key in place of
the first. In between the two registers are ordinary words. They change if a
program stores to them or an image is loaded over them, and not by anything
else, however much input comes and is read by other ways.

Of all that a step writes, what is not stored is written by a poll, and a
poll takes a read of the status register (`Machine.mem_writes`). The routines
scan strings without reading in this sense, so a text that lies over the
keyboard registers is printed and left alone.

> `polled_read_kbsr`: what a read of the status register answers and leaves;
> `peek_apply`: an operation changes a word only if it stores there, or if it
> reads the status register and the word is one of the two;
> `key_stays_latched`: the same for any operations, one after the other.
-/

namespace LC3

variable {κ : Type} [Console κ]

/-! ## Stores and polls -/

/-- The addresses that carrying out an instruction stores to. -/
def Core.stores (c : Core κ) : Instr → List Word
  | .st _ offset => [c.regs.pc + offset]
  | .sti _ offset => [(c.read (c.regs.pc + offset)).1]
  | .str _ base offset => [c.regs.get base + offset]
  | _ => []

/-- The addresses that the next step stores to. -/
def Machine.stores (m : Machine κ) : List Word :=
  match m.status, m.word.decode with
  | .running, .instr i => m.fetched.stores i
  | _, _ => []

/-- One of the two words that belong to the keyboard. -/
def Word.IsKeyboard (a : Word) : Prop := a = kbsr ∨ a = kbdr

theorem mem_latchWrites {key : Option UInt8} {b : Word} (h : b ∈ latchWrites key) :
    b.IsKeyboard := by
  cases key with
  | none => exact .inl (List.mem_singleton.1 h)
  | some key => exact (List.mem_cons.1 h).imp id List.mem_singleton.1

namespace Core

/-- A read writes only if it polls, and then only the words of the keyboard. -/
theorem mem_readWrites {c : Core κ} {a b : Word} (h : b ∈ c.readWrites a) :
    a = kbsr ∧ b.IsKeyboard := by
  by_cases ha : a = kbsr
  · rw [ha, readWrites_kbsr] at h
    exact ⟨ha, mem_latchWrites h⟩
  · rw [readWrites_of_ne c ha] at h
    exact absurd h List.not_mem_nil

/-- Each access of an instruction is a store or a read, and a read writes
only by a poll. -/
theorem mem_writes {c : Core κ} {i : Instr} {b : Word} (h : b ∈ c.writes i) :
    b ∈ c.stores i ∨ kbsr ∈ c.reads i ∧ b.IsKeyboard := by
  cases i with
  | ld | ldr =>
    obtain ⟨ha, hb⟩ := mem_readWrites h
    exact .inr ⟨List.mem_singleton.2 ha.symm, hb⟩
  | ldi dst offset =>
    rcases List.mem_append.1 h with h | h
    · obtain ⟨ha, hb⟩ := mem_readWrites h
      exact .inr ⟨List.mem_cons.2 (.inl ha.symm), hb⟩
    · obtain ⟨ha, hb⟩ := mem_readWrites h
      exact .inr ⟨List.mem_cons.2 (.inr (List.mem_singleton.2 ha.symm)), hb⟩
  | sti src offset =>
    rcases List.mem_append.1 h with h | h
    · obtain ⟨ha, hb⟩ := mem_readWrites h
      exact .inr ⟨List.mem_singleton.2 ha.symm, hb⟩
    · exact .inl h
  | st | str => exact .inl h
  | br | add | and | not | lea | jmp | jsr | jsrr => exact absurd h List.not_mem_nil

end Core

namespace Machine

/-- **What a step writes it stores, or a poll writes it.** The list of writes
is complete, so this covers everything that a step can change in memory. -/
theorem mem_writes {m : Machine κ} {b : Word} (h : b ∈ m.writes) :
    b ∈ m.stores ∨ kbsr ∈ m.reads ∧ b.IsKeyboard := by
  -- a fetch is a read like any other, so it writes only if it polls
  have hfetch : m.status = .running → b ∈ m.toCore.readWrites m.regs.pc →
      kbsr ∈ m.reads ∧ b.IsKeyboard := by
    intro hrun hmem
    obtain ⟨hpc, hb⟩ := Core.mem_readWrites hmem
    exact ⟨hpc ▸ pc_mem_reads hrun, hb⟩
  cases hm : m.status with
  | halted | faulted =>
    rw [writes, hm] at h
    exact absurd h List.not_mem_nil
  | running =>
    cases hdecode : m.word.decode with
    | instr i =>
      rw [writes_of_instr hm hdecode] at h
      rcases List.mem_append.1 h with h | h
      · exact .inr (hfetch hm h)
      · rw [stores, hm, hdecode, reads_of_instr hm hdecode]
        exact (Core.mem_writes h).imp id fun hpoll =>
          ⟨List.mem_cons_of_mem _ hpoll.1, hpoll.2⟩
    | trap vector =>
      rw [writes_of_trap hm hdecode] at h
      exact .inr (hfetch hm h)
    | reserved opcode =>
      rw [writes_of_reserved hm hdecode] at h
      exact .inr (hfetch hm h)

end Machine

namespace KeyLatch

open History

/-! ## Operations -/

/-- What can be done to a machine: it is stepped, a user changes something or
brings input, a word is looked at, or a routine is carried out that no
instruction has called. -/
inductive Op (κ : Type) where
  | step
  | edit (e : Edit κ)
  | registers (change : Registers → Registers)
  | ignoreUnknownTraps (setting : Bool)
  | peek (a : Word)
  | routine (t : Trap)

/-- The machine behind an operation, also if it was not completed for want of
input. -/
def Op.apply (m : Machine κ) : Op κ → Machine κ
  | .step => m.step.2
  | .edit e => { m with toCore := e.apply m.toCore }
  | .registers change => { m with regs := change m.regs }
  | .ignoreUnknownTraps setting => { m with ignoreUnknownTraps := setting }
  | .peek _ => m
  | .routine t => { m with toCore := (t.run m.toCore).2 }

/-- The operation reads the word at `a`, as an instruction or for one, or
because a user does. -/
def Op.ReadsAt (m : Machine κ) (a : Word) : Op κ → Prop
  | .step => a ∈ m.reads
  | .edit (.read b) => a = b
  | _ => False

/-- The operation stores to `a`, or loads an image that has a word for it. -/
def Op.StoresAt (m : Machine κ) (a : Word) : Op κ → Prop
  | .step => a ∈ m.stores
  | .edit (.write b _) => a = b
  | .edit (.loadImage s) => ∃ image, Image.ofStream s = .ok image ∧ image.Covers a
  | .edit (.loadFile path opened) => ∃ image, Image.ofFile path opened = .ok image ∧ image.Covers a
  | _ => False

/-- The operation does not read the status register, and it neither stores to
a keyboard register nor loads an image over one. -/
def Op.Spares (m : Machine κ) (op : Op κ) : Prop :=
  ¬ op.ReadsAt m kbsr ∧ ¬ op.StoresAt m kbsr ∧ ¬ op.StoresAt m kbdr

/-- None of the operations reads the status register, and none stores to
either keyboard register or loads an image over one. -/
def Undisturbed (m : Machine κ) (ops : List (Op κ)) : Prop :=
  Throughout Op.apply Op.Spares m ops

/-- A read of the status register at `c` has answered `w` and left `d`. It
takes the first byte that is unread, if there is one, and changes no words
but the two of the keyboard. -/
structure Polled (c : Core Script) (w : Word) (d : Core Script) : Prop where
  key : ∀ b ∈ c.console.input.head?, w = 0x8000 ∧ c.console.input = b :: d.console.input ∧
    d.mem.peek kbsr = 0x8000 ∧ (d.mem.peek kbdr).toNat = b.toNat
  noKey : c.console.input = [] → w = 0 ∧ d.console.input = [] ∧ d.mem.peek kbsr = 0 ∧
    d.mem.peek kbdr = c.mem.peek kbdr
  output : d.console.output = c.console.output
  regs : d.regs = c.regs

/-- **A read of the status register says whether there is a key, and latches
it.** What the register held before is overwritten in both cases. -/
theorem polled_read_kbsr (c : Core Script) : Polled c (c.read kbsr).1 (c.read kbsr).2 := by
  have hdata : kbdr ≠ kbsr := by decide
  rw [Core.read_kbsr]
  cases hinput : c.console.input with
  | nil =>
    rw [InputQueue.poll_eq_of_nil hinput]
    refine ⟨?_, ?_, rfl, rfl⟩
    · intro b hb
      rw [hinput] at hb
      cases hb
    · intro _
      refine ⟨Memory.peek_write_self _ kbsr 0, hinput, Memory.peek_write_self _ kbsr 0, ?_⟩
      exact (Memory.peek_write _ kbsr kbdr 0).trans (if_neg hdata)
  | cons b rest =>
    rw [InputQueue.poll_eq_of_cons hinput]
    have hstatus : ((c.mem.write kbsr 0x8000).write kbdr (.ofByte b)).peek kbsr = 0x8000 := by
      rw [Memory.peek_write, if_neg hdata.symm, Memory.peek_write_self]
    refine ⟨?_, ?_, rfl, rfl⟩
    · intro b' hb'
      rw [hinput] at hb'
      obtain rfl : b = b' := Option.some.inj hb'
      refine ⟨hstatus, hinput, hstatus, ?_⟩
      show (((c.mem.write kbsr 0x8000).write kbdr (.ofByte b)).peek kbdr).toNat = b.toNat
      rw [Memory.peek_write_self, Word.toNat_ofByte]
    · intro hnil
      rw [hinput] at hnil
      cases hnil

variable {m : Machine κ} {b : Word}

omit [Console κ] in
/-- An image changes the words that it covers; one that cannot be read covers
none. -/
theorem peek_load {c : Core κ} {image : Except LoadError Image}
    (h : ¬ ∃ i, image = .ok i ∧ i.Covers b) : (c.load image).2.mem.peek b = c.mem.peek b := by
  cases image with
  | error e => rfl
  | ok i => exact Memory.peek_place_of_not_covers _ fun hcovers => h ⟨i, rfl, hcovers⟩

/-- **An operation that does not store to a word leaves it**, unless the word
belongs to the keyboard and the operation reads the status register. -/
theorem peek_apply {op : Op κ} (hstores : ¬ op.StoresAt m b)
    (hreads : b.IsKeyboard → ¬ op.ReadsAt m kbsr) : (op.apply m).mem.peek b = m.mem.peek b := by
  cases op with
  | step =>
    refine Machine.peek_step_of_notMem_writes fun hmem => ?_
    rcases Machine.mem_writes hmem with hstored | ⟨hpoll, hb⟩
    · exact hstores hstored
    · exact hreads hb hpoll
  | edit e =>
    cases e with
    | loadImage | loadFile => exact peek_load hstores
    | write a w => exact (Memory.peek_write m.mem a b w).trans (if_neg hstores)
    | read a =>
      refine m.toCore.peek_read_of_notMem fun hmem => ?_
      obtain ⟨ha, hb⟩ := Core.mem_readWrites hmem
      exact hreads hb ha.symm
    | console change => rfl
  | routine t => exact congrArg (·.peek b) (Trap.mem_run t m.toCore)
  | registers | ignoreUnknownTraps | peek => rfl

theorem Op.Spares.not_storesAt {op : Op κ} (h : op.Spares m) (hb : b.IsKeyboard) :
    ¬ op.StoresAt m b := by
  rcases hb with rfl | rfl
  · exact h.2.1
  · exact h.2.2

/-- The words of the keyboard outlast operations that do not disturb them.
The condition is asked of every operation in the state it finds, for what a
step reads depends on that. -/
theorem peek_after (hb : b.IsKeyboard) {ops : List (Op κ)} (h : Undisturbed m ops) :
    (after Op.apply m ops).mem.peek b = m.mem.peek b := by
  -- the word is what it was at first, and each operation keeps that
  refine keeps_after (I := fun m' => m'.mem.peek b = m.mem.peek b) ?_ ops rfl h
  intro m' op hspares hkept
  exact (peek_apply (hspares.not_storesAt hb) fun _ => hspares.1).trans hkept

/-- **A latched key stays latched.** A read of the status register answers
0x8000 and latches the first unread byte, or answers 0 and keeps the data
register, whatever the program had stored in the status register. After that,
and from any other state, whatever operations follow in whatever order, the
words at both registers stay, as long as the status register is not read and
nothing is stored to the two or loaded over them, however much input is
brought or read by routines in the meantime. And a word that is not one of
the two changes only where it is stored to or loaded over: no read changes
it. -/
theorem key_stays_latched (m : Machine Script) :
    Polled m.toCore (m.toCore.read kbsr).1 (m.toCore.read kbsr).2 ∧
    (∀ ops, Undisturbed m ops → (after Op.apply m ops).mem.peek kbsr = m.mem.peek kbsr ∧
      (after Op.apply m ops).mem.peek kbdr = m.mem.peek kbdr) ∧
    (∀ a b, b ≠ kbsr → b ≠ kbdr → (m.toCore.read a).2.mem.peek b = m.mem.peek b) ∧
    ∀ (op : Op Script) b, b ≠ kbsr → b ≠ kbdr → ¬ op.StoresAt m b →
      (op.apply m).mem.peek b = m.mem.peek b := by
  have hother : ∀ {b : Word}, b ≠ kbsr → b ≠ kbdr → ¬ b.IsKeyboard :=
    fun hs hd hb => hb.elim hs hd
  refine ⟨polled_read_kbsr m.toCore, ?_, ?_, ?_⟩
  · intro ops h
    exact ⟨peek_after (.inl rfl) h, peek_after (.inr rfl) h⟩
  · intro a b hs hd
    exact m.toCore.peek_read_of_notMem fun hmem => hother hs hd (Core.mem_readWrites hmem).2
  · intro op b hs hd hstores
    exact peek_apply hstores fun hb => absurd hb (hother hs hd)

/-- Behind a read of the status register that has taken the key A: a call of
GETC is next, and two keys are left. -/
def holdingA : Machine Script :=
  Op.apply (.about 0x3000 0xF020 (.ofInput [0x41, 0x42, 0x43])) (.edit (.read kbsr))

/-- The call, more input, a read by the other routine that reads, a read of
the data register, and a store between the two registers. -/
def busy : List (Op Script) :=
  [.step, .edit (.console (·.push [0x44])), .routine .prompt, .edit (.read kbdr),
    .edit (.write 0xFE01 0xFFFF)]

/-- Both keys are gone by then, and the registers still say A. -/
theorem key_stays_latched_holdingA :
    Undisturbed holdingA busy ∧ (after Op.apply holdingA busy).console.input = [0x44] ∧
    (after Op.apply holdingA busy).mem.peek kbsr = 0x8000 ∧
    ((after Op.apply holdingA busy).mem.peek kbdr).toNat = 0x41 := by
  obtain ⟨hpolled, -⟩ :=
    key_stays_latched (.about 0x3000 0xF020 (.ofInput [0x41, 0x42, 0x43]))
  obtain ⟨-, hinput, hstatus, hdata⟩ := hpolled.key 0x41 rfl
  have hleft : [0x42, 0x43] = holdingA.console.input := (List.cons.inj hinput).2
  have hpc : holdingA.regs.pc = 0x3000 := rfl
  have hword : holdingA.word = 0xF020 := by
    rw [(Machine.word_of_pc_ne (m := holdingA) (by decide)).1, hpc]
    refine (Core.peek_read_of_notMem _ fun hmem => ?_).trans
      (Memory.peek_write_self _ 0x3000 0xF020)
    exact absurd (Core.mem_readWrites hmem).2 (by unfold Word.IsKeyboard; decide)
  have hdecode : holdingA.word.decode = .trap 0x20 := by
    rw [hword]
    decide
  have hasked : holdingA.step.2.console.input = [0x43] := by
    rw [UnreadInput.input_step_of_asks (.inr ⟨rfl, 0x20, .getc, hdecode, rfl, .inl rfl⟩), ← hleft]
    rfl
  have hreads : ¬ Op.ReadsAt holdingA kbsr .step := by
    show kbsr ∉ holdingA.reads
    rw [Machine.reads_of_trap rfl hdecode, hpc]
    decide
  have hstores : ∀ a, ¬ Op.StoresAt holdingA a .step := by
    intro a
    show a ∉ holdingA.stores
    rw [Machine.stores, hdecode]
    exact List.not_mem_nil
  have hundisturbed : Undisturbed holdingA busy := by
    -- the call is a step that must be looked into; the others say of themselves
    -- what they do
    refine ⟨⟨hreads, hstores _, hstores _⟩, ?_⟩
    simp [Throughout, Op.Spares, Op.ReadsAt, Op.StoresAt, kbsr, kbdr]
  obtain ⟨-, hkept, -⟩ := key_stays_latched holdingA
  obtain ⟨hstatus', hdata'⟩ := hkept busy hundisturbed
  refine ⟨hundisturbed, ?_, hstatus'.trans hstatus, (congrArg _ hdata').trans hdata⟩
  -- of these five only the step and the routine take input, and the push brings
  -- some
  have hbusy : ∀ m : Machine Script,
      (after Op.apply m busy).console.input = (m.step.2.console.input ++ [0x44]).tail := by
    intro m
    let c : Core Script := { m.step.2.toCore with console := m.step.2.console.push [0x44] }
    show ((Trap.prompt.run c).2.read kbdr).2.console.input = c.console.input.tail
    rw [Core.read_of_ne _ (by decide), UnreadInput.input_run_of_asks (.inr rfl)]
  rw [hbusy, hasked]
  rfl

end KeyLatch

end LC3
