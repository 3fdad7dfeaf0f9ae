import LC3.Console.Script
import LC3.Proofs.Step

/-!
# The instruction set

What each instruction does, written down apart from the code that does it:
fields are quotients and remainders of the word, offsets are integers in
two's complement, sums are taken over the integers and go round at 65536, and
the state that is left is described by what a reader of registers and memory
finds there. `Executes w c d` says that the word `w`, fetched into the core
`c`, may leave the core `d`; it has one line for each number in the top four
bits.

> `step_executes`: a running machine that fetches a word which is neither a
> trap call nor reserved answers `running`, and the core it leaves is the one
> and only core that `Executes` allows.

Each of the four ways to change a core (`Sets`, `Stores`, `GoesTo`, `Calls`)
leaves nothing open (`sets_iff` and its kin): two cores that look alike
everywhere are equal.
-/

namespace LC3.InstructionSet

variable {κ : Type}

/-! ## Four ways to change a core -/

/-- Register `r` has the word `v`, the flag its sign, and all else is as
before. -/
structure Sets (c : Core κ) (r : Reg) (v : Word) (d : Core κ) : Prop where
  get : ∀ s, d.regs.get s = if s = r then v else c.regs.get s
  cond : d.regs.cond = .ofSign v.toInt
  pc : d.regs.pc = c.regs.pc
  mem : d.mem = c.mem
  console : d.console = c.console

/-- Address `a` has the word `v`, and all else is as before. -/
structure Stores (c : Core κ) (a v : Word) (d : Core κ) : Prop where
  peek : ∀ b, d.mem.peek b = if b = a then v else c.mem.peek b
  regs : d.regs = c.regs
  console : d.console = c.console

/-- The program counter is at `a`, and all else is as before. -/
structure GoesTo (c : Core κ) (a : Word) (d : Core κ) : Prop where
  pc : d.regs.pc = a
  get : ∀ s, d.regs.get s = c.regs.get s
  cond : d.regs.cond = c.regs.cond
  mem : d.mem = c.mem
  console : d.console = c.console

/-- The program counter is at `a`, register 7 has where it was before, and
all else is as before. -/
structure Calls (c : Core κ) (a : Word) (d : Core κ) : Prop where
  pc : d.regs.pc = a
  get : ∀ s, d.regs.get s = if s = 7 then c.regs.pc else c.regs.get s
  cond : d.regs.cond = c.regs.cond
  mem : d.mem = c.mem
  console : d.console = c.console

/-- Cores with the same registers, memory and console are one. -/
private theorem core_ext {c d : Core κ} (hregs : d.regs = c.regs) (hmem : d.mem = c.mem)
    (hconsole : d.console = c.console) : d = c := by
  cases c
  cases d
  simp_all

/-- The program's own way to keep a result does what `Sets` says, and no
other core does: registers are compared one by one, and the flag with them. -/
theorem sets_iff {c d : Core κ} {r : Reg} {v : Word} : Sets c r v d ↔ d = c.setResult r v := by
  constructor
  · intro h
    refine core_ext (Registers.ext_get (fun s => ?_) ?_ ?_) h.mem h.console
    · rw [h.get s]
      exact (Registers.get_setResult c.regs r s v).symm
    · exact h.pc
    · rw [h.cond, ← Flag.of_eq_ofSign]
      exact (Registers.cond_setResult c.regs r v).symm
  · intro h
    subst h
    refine ⟨fun s => Registers.get_setResult c.regs r s v, ?_, rfl, rfl, rfl⟩
    rw [← Flag.of_eq_ofSign]
    exact Registers.cond_setResult c.regs r v

/-- The same for a store. Memories that agree at every address are equal. -/
theorem stores_iff {c d : Core κ} {a v : Word} : Stores c a v d ↔ d = c.store a v := by
  constructor
  · intro h
    refine core_ext h.regs (Memory.ext_peek fun b => ?_) h.console
    rw [h.peek b]
    exact (Memory.peek_write c.mem a b v).symm
  · intro h
    subst h
    exact ⟨fun b => Memory.peek_write c.mem a b v, rfl, rfl⟩

theorem goesTo_iff {c d : Core κ} {a : Word} : GoesTo c a d ↔ d = c.jump a := by
  constructor
  · intro h
    exact core_ext (Registers.ext_get h.get h.pc h.cond) h.mem h.console
  · intro h
    subst h
    exact ⟨rfl, fun _ => rfl, rfl, rfl, rfl⟩

theorem calls_iff {c d : Core κ} {a : Word} : Calls c a d ↔ d = c.link.jump a := by
  constructor
  · intro h
    refine core_ext (Registers.ext_get (fun s => ?_) h.pc h.cond) h.mem h.console
    rw [h.get s]
    exact (Registers.get_set c.regs 7 s c.regs.pc).symm
  · intro h
    subst h
    exact ⟨rfl, fun s => Registers.get_set c.regs 7 s c.regs.pc, rfl, rfl, rfl⟩

/-! ## The table -/

private theorem get_link (c : Core κ) (r : Reg) :
    c.link.regs.get r = if r = 7 then c.regs.pc else c.regs.get r :=
  Registers.get_set c.regs 7 r c.regs.pc

variable [Console κ]

/-- The word `w`, fetched into `c`, may leave `d`. The program counter of `c`
is past the word already, and a read may poll the keyboard, so what is read
before matters to what is read next. -/
def Executes (w : Word) (c d : Core κ) : Prop :=
  let reg (r : Reg) : Int := (c.regs.get r).toNat
  let near (n : Nat) : Word := .wrap (c.regs.pc.toNat + w.signed n)
  let indexed : Word := .wrap (reg (w.regAt 6) + w.signed 6)
  let second : Int := if w.HasBit 5 then w.signed 5 else reg (w.regAt 0)
  match w.opcode with
  | 0x0 => GoesTo c (if w.HasBit c.regs.cond.branchBit then near 9 else c.regs.pc) d
  | 0x1 => Sets c (w.regAt 9) (.wrap (reg (w.regAt 6) + second)) d
  | 0x2 => Sets (c.read (near 9)).2 (w.regAt 9) (c.read (near 9)).1 d
  | 0x3 => Stores c (near 9) (c.regs.get (w.regAt 9)) d
  | 0x4 =>
    if w.HasBit 11 then Calls c (near 11) d
    -- the link is kept before the base register is looked at
    else Calls c (if w.regAt 6 = 7 then c.regs.pc else c.regs.get (w.regAt 6)) d
  | 0x5 => Sets c (w.regAt 9) (c.regs.get (w.regAt 6) &&& .wrap second) d
  | 0x6 => Sets (c.read indexed).2 (w.regAt 9) (c.read indexed).1 d
  | 0x7 => Stores c indexed (c.regs.get (w.regAt 9)) d
  | 0x9 => Sets c (w.regAt 9) (.wrap (65535 - reg (w.regAt 6))) d
  | 0xA =>
    let (pointer, c) := c.read (near 9)
    Sets (c.read pointer).2 (w.regAt 9) (c.read pointer).1 d
  | 0xB => Stores (c.read (near 9)).2 (c.read (near 9)).1 (c.regs.get (w.regAt 9)) d
  | 0xC => GoesTo c (c.regs.get (w.regAt 6)) d
  | 0xE => Sets c (w.regAt 9) (near 9) d
  | _ => False

/-- The second operand is the word that its integer stands for modulo 65536. -/
private theorem wrap_second (w : Word) (regs : Registers) :
    Word.wrap (if w.HasBit 5 then w.signed 5 else (regs.get (w.regAt 0)).toNat) =
      w.operand.value regs := by
  rw [Word.value_operand]
  split
  · rfl
  · exact Word.wrap_toNat _

/-- What decoding makes of a word does what the table says, and the table
allows nothing else. The proof goes from the table to the program: fields and
sums are turned into those of words, and then each line is one of the four
ways. -/
theorem executes_iff {w : Word} {i : Instr} (h : w.decode = .instr i) (c d : Core κ) :
    Executes w c d ↔ d = c.exec i := by
  unfold Executes
  -- from integers back to words: every line of the table becomes a sum of words
  simp only [← Word.toNat_toField_of w, ← Word.dst_eq_regAt, ← Word.base_eq_regAt,
    ← Word.add_signExtend (show 0 < 9 by decide) (show 9 < 16 by decide),
    ← Word.add_signExtend (show 0 < 6 by decide) (show 6 < 16 by decide),
    ← Word.add_signExtend (show 0 < 11 by decide) (show 11 < 16 by decide),
    ← Word.not_eq_wrap, Word.wrap_add, Word.wrap_toNat, wrap_second]
  unfold Word.decode at h
  -- one case for each opcode; those that are no instruction are gone with
  -- `reduceCtorEq`
  cases hop : Opcode.of w <;> rw [hop] at h <;> simp only [Decoded.instr.injEq, reduceCtorEq] at h
  all_goals subst h
  case br =>
    refine goesTo_iff.trans ?_
    by_cases hbit : w.HasBit c.regs.cond.branchBit
    -- the program tests all three bits at once, the table tests the one that
    -- belongs to the flag
    · have hmask : ¬ c.regs.cond.bits &&& w.extractLsb' 9 3 = 0 :=
        fun hz => (Flag.bits_and_mask_eq_zero_iff _ w).1 hz hbit
      rw [if_pos hbit, Core.exec, if_neg hmask]
    · have hmask : c.regs.cond.bits &&& w.extractLsb' 9 3 = 0 :=
        (Flag.bits_and_mask_eq_zero_iff _ w).2 hbit
      rw [if_neg hbit, Core.exec, if_pos hmask]
      rfl
  case jsr =>
    show (if w.HasBit 11 then _ else _) ↔ _
    by_cases hbit : w.HasBit 11
    · rw [if_pos hbit, if_pos (Word.getLsbD_iff_hasBit.2 hbit)]
      exact calls_iff
    · rw [if_neg hbit, if_neg fun hb => hbit (Word.getLsbD_iff_hasBit.1 hb), ← get_link]
      exact calls_iff
  case jmp => exact goesTo_iff
  case st | sti | str => exact stores_iff
  case add | and | not | lea | ld | ldi | ldr => exact sets_iff

/-- A word that is neither a trap call nor reserved decodes as an
instruction. -/
theorem decode_of_opcode {w : Word} (h : w.opcode ∉ [8, 13, 15]) : ∃ i, w.decode = .instr i := by
  have hnum := Word.toNat_toField_of w
  unfold Word.decode
  cases hop : Opcode.of w <;> rw [hop] at hnum
  case rti | res | trap => exact absurd (hnum ▸ by decide) h
  all_goals exact ⟨_, rfl⟩

/-- **A step carries out the instruction set.** A running machine that
fetches an instruction goes on running, with the core that the table gives
for the fetched word and with nothing else changed; the fetch itself may poll
the keyboard, and leaves the program counter past the word. -/
theorem step_executes (m : Machine κ) (hrun : m.status = .running)
    (hop : m.word.opcode ∉ [8, 13, 15]) :
    ∃ d, m.step = (.running, { m with toCore := d }) ∧
      ∀ e, Executes m.word m.fetched e ↔ e = d := by
  obtain ⟨i, hi⟩ := decode_of_opcode hop
  exact ⟨m.fetched.exec i, Machine.step_of_instr hrun hi, executes_iff hi m.fetched⟩

/-- The last word of memory subtracts one from register 0, and the program
goes on at address 0. -/
theorem step_executes_at_top :
    (Machine.about 0xFFFF 0x103F ({} : Script)).status = .running ∧
    (Machine.about 0xFFFF 0x103F ({} : Script)).word.opcode ∉ [8, 13, 15] ∧
    ∃ d, (Machine.about 0xFFFF 0x103F ({} : Script)).step =
        (.running, { Machine.about 0xFFFF 0x103F ({} : Script) with toCore := d }) ∧
      ∀ e, Executes 0x103F (Machine.about 0xFFFF 0x103F ({} : Script)).fetched e ↔ e = d := by
  have hword : (Machine.about 0xFFFF 0x103F ({} : Script)).word = 0x103F :=
    Machine.word_about (by decide) _ _
  have hop : (Machine.about 0xFFFF 0x103F ({} : Script)).word.opcode ∉ [8, 13, 15] := by
    rw [hword]
    decide
  have hexecutes := step_executes (.about 0xFFFF 0x103F ({} : Script)) rfl hop
  rw [hword] at hexecutes
  exact ⟨rfl, hop, hexecutes⟩

end LC3.InstructionSet
