import LC3.Console.Script
import LC3.Proofs.Reads

/-!
# Code that runs wherever it is

A program whose addresses are all relative to the program counter does the
same in another place. Two machines run such a program side by side, the
second with every word of memory `d` places further up and the program
counter with it (`Moved`). Addresses go round at 65536, so a stretch of code
may be whole in one machine and go round the end of memory in the other, and
neither can tell: an offset is added to a program counter that has moved
already, and adding comes in any order.

What does not move is the keyboard. So no read may be from the status
register, in either machine (`StaysClear`).

> `Shifted.exec`: one instruction;
> `moves_along`: any number of steps, over code that may change itself.
-/

namespace LC3

/-- The instructions that have no address, or have it relative to the program
counter. -/
def Instr.IsRelative : Instr → Prop
  | .br .. | .add .. | .and .. | .not .. | .ld .. | .st .. => True
  | .ldi .. | .ldr .. | .lea .. | .sti .. | .str .. | .jmp .. | .jsr .. | .jsrr .. => False

namespace PositionIndependence

private theorem add_shift (a b d : Word) : a + d + b = a + b + d := by
  rw [BitVec.add_assoc, BitVec.add_comm d, ← BitVec.add_assoc]

variable {κ : Type}

/-- The same registers, flag and console, with program counter and memory `d`
places further up. -/
structure Shifted (d : Word) (c c' : Core κ) : Prop where
  get : ∀ r, c'.regs.get r = c.regs.get r
  cond : c'.regs.cond = c.regs.cond
  pc : c'.regs.pc = c.regs.pc + d
  peek : ∀ a, c'.mem.peek (a + d) = c.mem.peek a
  console : c'.console = c.console

/-- Both machines are running, and the second is the first with program
counter and memory `d` places further up. -/
structure Moved (d : Word) (m m' : Machine κ) : Prop extends Shifted d m.toCore m'.toCore where
  running : m.status = .running
  running' : m'.status = .running

namespace Shifted

variable {d : Word} {c c' : Core κ}

/-- An address that has moved as far as everything else is a jump to the same
place. -/
theorem jump (h : Shifted d c c') {a a' : Word} (ha : a' = a + d) :
    Shifted d (c.jump a) (c'.jump a') :=
  ⟨h.get, h.cond, ha, h.peek, h.console⟩

/-- Registers do not move, so a result is the same in both machines, and its
sign. -/
theorem setResult (h : Shifted d c c') (r : Reg) (w : Word) :
    Shifted d (c.setResult r w) (c'.setResult r w) := by
  refine ⟨?_, ?_, h.pc, h.peek, h.console⟩
  · intro s
    show (c'.regs.setResult r w).get s = (c.regs.setResult r w).get s
    rw [Registers.get_setResult, Registers.get_setResult, h.get]
  · exact (Registers.cond_setResult c'.regs r w).trans (Registers.cond_setResult c.regs r w).symm

/-- A store goes to the word that has moved with its address. -/
theorem store (h : Shifted d c c') {a a' : Word} (ha : a' = a + d) (w : Word) :
    Shifted d (c.store a w) (c'.store a' w) := by
  subst ha
  refine ⟨h.get, h.cond, h.pc, ?_, h.console⟩
  intro b
  show (c'.mem.write (a + d) w).peek (b + d) = (c.mem.write a w).peek b
  rw [Memory.peek_write, Memory.peek_write, h.peek]
  simp only [BitVec.add_left_inj]

theorem value (h : Shifted d c c') (rhs : Operand) : rhs.value c'.regs = rhs.value c.regs := by
  cases rhs with
  | reg r => exact h.get r
  | imm w => rfl

variable [Console κ]

/-- Two reads away from the status register find the same word, and leave all
as it is. -/
theorem load (h : Shifted d c c') (r : Reg) {a a' : Word} (ha : a' = a + d) (hne : a ≠ kbsr)
    (hne' : a' ≠ kbsr) :
    Shifted d ((c.read a).2.setResult r (c.read a).1)
      ((c'.read a').2.setResult r (c'.read a').1) := by
  have hpeek : c'.mem.peek a' = c.mem.peek a := by rw [ha, h.peek]
  rw [Core.read_of_ne c hne, Core.read_of_ne c' hne', hpeek]
  exact h.setResult r _

/-- **An instruction with relative addresses does the same in either place.**
The two loads and stores go by addresses that are `d` places apart, and find
the same words there. -/
theorem exec (h : Shifted d c c') {i : Instr} (hi : i.IsRelative)
    (hreads : ∀ a ∈ c.reads i, a ≠ kbsr ∧ a + d ≠ kbsr) : Shifted d (c.exec i) (c'.exec i) := by
  -- an address stays relative to a program counter that is `d` further up
  have haddr : ∀ offset, c'.regs.pc + offset = c.regs.pc + offset + d := by
    intro offset
    rw [h.pc, add_shift]
  cases i with
  | br nzp offset =>
    simp only [Core.exec, h.cond]
    split
    · exact h
    · exact h.jump (haddr offset)
  | add dst src rhs =>
    simp only [Core.exec, h.get, h.value]
    exact h.setResult dst _
  | and dst src rhs =>
    simp only [Core.exec, h.get, h.value]
    exact h.setResult dst _
  | not dst src =>
    simp only [Core.exec, h.get]
    exact h.setResult dst _
  | ld dst offset =>
    obtain ⟨hne, hne'⟩ := hreads (c.regs.pc + offset) (List.mem_singleton.2 rfl)
    exact h.load dst (haddr offset) hne (haddr offset ▸ hne')
  | st src offset =>
    simp only [Core.exec, h.get]
    exact h.store (haddr offset) _
  | ldi | ldr | lea | sti | str | jmp | jsr | jsrr => exact hi.elim

end Shifted

/-! ## Steps -/

/-- One of BR, ADD, LD, ST, AND and NOT. -/
def IsRelativeCode (w : Word) : Prop := w.opcode ∈ [0x0, 0x1, 0x2, 0x3, 0x5, 0x9]

/-- The six opcodes, and no others, decode as instructions of this kind. -/
theorem decode_of_isRelativeCode {w : Word} (h : IsRelativeCode w) :
    ∃ i, w.decode = .instr i ∧ i.IsRelative := by
  have hnum := Word.toNat_toField_of w
  unfold IsRelativeCode at h
  unfold Word.decode
  cases hop : Opcode.of w <;> rw [hop] at hnum
  case br | add | ld | st | and | not => exact ⟨_, rfl, trivial⟩
  -- every other opcode has a number that is not on the list
  all_goals exact absurd (hnum ▸ h) (by decide)

variable [Console κ]

/-- The next step carries out one of these instructions, and reads the status
register neither where it is nor, if everything were `d` places further up,
there. -/
structure StaysClear (d : Word) (m : Machine κ) : Prop where
  code : IsRelativeCode m.word
  reads : ∀ a ∈ m.reads, a ≠ kbsr ∧ a ≠ kbsr - d

variable {d : Word} {m m' : Machine κ}

theorem StaysClear.ne (h : StaysClear d m) {a : Word} (ha : a ∈ m.reads) :
    a ≠ kbsr ∧ a + d ≠ kbsr := by
  obtain ⟨hne, hne'⟩ := h.reads a ha
  refine ⟨hne, ?_⟩
  intro heq
  exact hne' (by rw [← heq, BitVec.add_sub_cancel])

/-- Both fetch the same word, because neither fetch is a poll. -/
theorem Moved.fetch (h : Moved d m m') (hclear : StaysClear d m) :
    m'.word = m.word ∧ Shifted d m.fetched m'.fetched := by
  obtain ⟨hne, hne'⟩ := hclear.ne (Machine.pc_mem_reads h.running)
  rw [← h.pc] at hne'
  obtain ⟨hword, hfetched⟩ := Machine.word_of_pc_ne hne
  obtain ⟨hword', hfetched'⟩ := Machine.word_of_pc_ne hne'
  rw [hword, hword', hfetched, hfetched']
  refine ⟨by rw [h.pc, h.peek], h.toShifted.jump ?_⟩
  rw [Word.place_eq_add, Word.place_eq_add, h.pc, add_shift]

/-- **One step in either place.** The fetch finds the same word and the
instruction does the same with it. -/
theorem Moved.step (h : Moved d m m') (hclear : StaysClear d m) :
    m.step.1 = .running ∧ m'.step.1 = .running ∧ Moved d m.step.2 m'.step.2 := by
  obtain ⟨hword, hfetched⟩ := h.fetch hclear
  obtain ⟨i, hdecode, hi⟩ := decode_of_isRelativeCode hclear.code
  have hexec : Shifted d (m.fetched.exec i) (m'.fetched.exec i) := by
    -- what the instruction reads is read by the step, so it stays clear of the
    -- keyboard
    refine hfetched.exec hi fun a ha => hclear.ne ?_
    rw [Machine.reads_of_instr h.running hdecode]
    exact List.mem_cons_of_mem _ ha
  rw [Machine.step_of_instr h.running hdecode, Machine.step_of_instr h.running' (hword ▸ hdecode)]
  exact ⟨rfl, rfl, hexec, h.running, h.running'⟩

/-- **Code with relative addresses runs the same wherever it is.** Of two
running machines the second has everything `d` places further up. As long as
the first carries out BR, ADD, AND, NOT, LD and ST only, and reads neither
the status register nor the word that is moved there, both answer `running`
in every step and the second stays the first with everything `d` places
further up, the same input unread and the same output written. -/
theorem moves_along (d : Word) (m m' : Machine κ) (n : Nat) (h : Moved d m m')
    (hclear : ∀ i < n, StaysClear d (m.steps i)) :
    m.answers n = List.replicate n .running ∧ m'.answers n = List.replicate n .running ∧
      Moved d (m.steps n) (m'.steps n) := by
  induction n with
  | zero => exact ⟨rfl, rfl, h⟩
  | succ n ih =>
    obtain ⟨hanswers, hanswers', hmoved⟩ := ih fun i hi => hclear i (Nat.lt_succ_of_lt hi)
    obtain ⟨hlast, hlast', hstep⟩ := hmoved.step (hclear n (Nat.lt_succ_self n))
    refine ⟨?_, ?_, ?_⟩
    · rw [Machine.answers_succ, hanswers, hlast, List.replicate_succ']
    · rw [Machine.answers_succ, hanswers', hlast', List.replicate_succ']
    · rw [Machine.steps_succ, Machine.steps_succ]
      exact hstep

/-- LD R0, #-1, which loads itself, at the last address and at 0x3000. The
program counter goes round in the one machine and not in the other. -/
theorem moves_along_at_top :
    let top := Machine.about 0xFFFF 0x21FF ({} : Script)
    let start := Machine.about 0x3000 0x21FF ({} : Script)
    Moved 0x3001 top start ∧ (∀ i < 1, StaysClear 0x3001 (top.steps i)) ∧
    top.answers 1 = [.running] ∧ start.answers 1 = [.running] ∧
    Moved 0x3001 (top.steps 1) (start.steps 1) := by
  intro top start
  have hmoved : Moved 0x3001 top start := by
    refine ⟨⟨fun r => rfl, rfl, by decide, ?_, rfl⟩, rfl, rfl⟩
    intro a
    show (Memory.zeroed.write 0x3000 0x21FF).peek (a + 0x3001) =
      (Memory.zeroed.write 0xFFFF 0x21FF).peek a
    have hsame : a + 0x3001 = 0x3000 ↔ a = 0xFFFF := BitVec.add_left_inj (y := 0xFFFF) 0x3001
    simp only [Memory.peek_write, hsame, Memory.peek_zeroed]
  have hclear : StaysClear 0x3001 top := by
    have hword : top.word = 0x21FF := Machine.word_about (by decide) _ _
    have hdecode : top.word.decode = .instr (.ld 0 0xFFFF) := by
      rw [hword]
      decide
    have hfetched : top.fetched = top.toCore.jump (top.regs.pc.place 1) :=
      (Machine.word_of_pc_ne (by decide)).2
    refine ⟨?_, ?_⟩
    · rw [IsRelativeCode, hword]
      decide
    · rw [Machine.reads_of_instr rfl hdecode, hfetched]
      have hreads : top.regs.pc.place 1 + 0xFFFF = top.regs.pc := by decide
      simp only [Core.reads, Core.jump, hreads, List.mem_cons, List.not_mem_nil, or_false, or_self,
        forall_eq]
      decide
  have hclears : ∀ i < 1, StaysClear 0x3001 (top.steps i) := by
    intro i hi
    obtain rfl : i = 0 := Nat.lt_one_iff.1 hi
    exact hclear
  exact ⟨hmoved, hclears, moves_along 0x3001 top start 1 hmoved hclears⟩

end PositionIndependence

end LC3
