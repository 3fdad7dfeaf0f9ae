import LC3.Console.Script
import LC3.Proofs.Step

/-!
# What the trap routines have in common

Every routine is found by its number, and whatever it does, it leaves most of
the core alone: it changes no word of memory and no register but register 0,
and it does not move the program counter. Over a script, printing adds to the
output and changes nothing else.

> `mem_run`, `pc_run`, `get_run`: the frame of a routine, over any console;
> `ofVector?_of_number`: the six numbers have a routine each;
> `run_of_starved`, `run_eq_endless_iff`: what keeps a routine from
> returning;
> `Machine.step_eq_halted_iff`: the call of one of them, and nothing else,
> halts a machine.
-/

namespace LC3.Trap

/-- The number a routine is called by. -/
def number : Trap → Nat
  | .getc => 0x20
  | .out => 0x21
  | .puts => 0x22
  | .prompt => 0x23
  | .putsp => 0x24
  | .halt => 0x25

theorem number_of_ofVector? {vector : UInt8} {t : Trap} (h : ofVector? vector = some t) :
    number t = vector.toNat := by
  unfold ofVector? at h
  split at h <;> cases h <;> exact Eq.symm ‹_›

/-- The six numbers follow each other, and each of them has its routine. -/
theorem ofVector?_of_number {vector : UInt8} (h : 0x20 ≤ vector.toNat ∧ vector.toNat ≤ 0x25) :
    ∃ t, ofVector? vector = some t ∧ number t = vector.toNat := by
  cases ht : ofVector? vector with
  | none =>
    rcases ofVector?_eq_none_iff.1 ht with hlow | hhigh
    · exact absurd (UInt8.lt_iff_toNat_lt.1 hlow) (by simpa using h.1)
    · exact absurd (UInt8.lt_iff_toNat_lt.1 hhigh) (by simpa using h.2)
  | some t => exact ⟨t, rfl, number_of_ofVector? ht⟩

/-- The number of a routine is in the word that calls it. -/
theorem number_of_decode {w : Word} {vector : UInt8} {t : Trap} (hdecode : w.decode = .trap vector)
    (ht : ofVector? vector = some t) : w.opcode = 15 ∧ w.toNat % 256 = t.number := by
  obtain ⟨hopcode, rfl⟩ := Word.decode_eq_trap_iff.1 hdecode
  exact ⟨hopcode, (Word.toNat_lowByte w).symm.trans (number_of_ofVector? ht).symm⟩

/-- A word with the opcode of a call and the number of a routine calls that
routine. -/
theorem decode_of_number {w : Word} {t : Trap} (hopcode : w.opcode = 15)
    (hnumber : w.toNat % 256 = t.number) :
    w.decode = .trap w.lowByte ∧ ofVector? w.lowByte = some t := by
  refine ⟨Word.decode_eq_trap_iff.2 ⟨hopcode, rfl⟩, ?_⟩
  rw [← Word.toNat_lowByte] at hnumber
  unfold ofVector?
  rw [hnumber]
  cases t <;> rfl

/-! ## What a routine leaves alone -/

section Frame

variable {κ : Type} [Console κ]

/-- Printing a string, with an end or without, is no matter of registers or
memory. -/
theorem frame_printString (encode : List Word → List UInt8) (c : Core κ) :
    (printString encode c).2.regs = c.regs ∧ (printString encode c).2.mem = c.mem := by
  unfold printString
  split
  · exact ⟨rfl, rfl⟩
  · exact ⟨rfl, rfl⟩

/-- No routine stores anything. -/
theorem mem_run (t : Trap) (c : Core κ) : (t.run c).2.mem = c.mem := by
  cases t with
  | getc | prompt =>
    simp only [run]
    split <;> rfl
  | puts | putsp => exact (frame_printString _ c).2
  | out | halt => rfl

theorem pc_run (t : Trap) (c : Core κ) : (t.run c).2.regs.pc = c.regs.pc := by
  cases t with
  | getc | prompt =>
    simp only [run]
    split <;> rfl
  | puts | putsp => exact congrArg Registers.pc (frame_printString _ c).1
  | out | halt => rfl

/-- The routines have only register 0 to give an answer in, so the others,
the link among them, are as the call has left them. -/
theorem get_run (t : Trap) (c : Core κ) {r : Reg} (hr : r ≠ 0) :
    (t.run c).2.regs.get r = c.regs.get r := by
  -- only the two routines that read set a register, and it is register 0
  have hset : ∀ (regs : Registers) (w : Word), (regs.setResult 0 w).get r = regs.get r := by
    intro regs w
    rw [Registers.get_setResult, if_neg hr]
  cases t with
  | getc | prompt =>
    simp only [run]
    split
    · exact hset _ _
    · rfl
  | puts | putsp => exact congrArg (·.get r) (frame_printString _ c).1
  | out | halt => rfl

/-- Only one routine halts. -/
theorem run_eq_halt_iff {t : Trap} {c : Core κ} : (t.run c).1 = .halt ↔ t = .halt := by
  cases t with
  | getc | prompt =>
    simp only [run]
    split <;> simp
  | puts | putsp =>
    simp only [run, printString]
    split <;> simp
  | out | halt => simp [run]

/-- Only a string without an end keeps a routine from returning. -/
theorem run_eq_endless_iff {t : Trap} {c : Core κ} :
    (∃ cycle, (t.run c).1 = .endless cycle) ↔
      (t = .puts ∨ t = .putsp) ∧ ∀ a, c.mem.peek a ≠ 0 := by
  rw [← Memory.string?_eq_none_iff (a := c.regs.get 0)]
  cases t with
  | getc | prompt =>
    simp only [run]
    split <;> simp
  | puts | putsp =>
    simp only [run, printString]
    split
    next hws => simp [hws]
    next hnone => simp [hnone]
  | out | halt => simp [run]

end Frame

/-! ## Printing over a script -/

/-- Over a script a print is bytes at the end of the output, and the flush
does nothing. -/
theorem print_eq (bytes : List UInt8) (c : Core Script) :
    print bytes c =
      { c with console := ⟨c.console.input, c.console.output ++ bytes⟩ } := by
  have hwrite :
      Console.writeAll bytes c.console = ⟨c.console.input, c.console.output ++ bytes⟩ := by
    rw [← Script.input_writeAll bytes, ← Script.output_writeAll bytes]
  rw [print, Script.flush_eq, hwrite]

theorem input_print (bytes : List UInt8) (c : Core Script) :
    (print bytes c).console.input = c.console.input := by
  rw [print_eq]

theorem input_printString (encode : List Word → List UInt8) (c : Core Script) :
    (printString encode c).2.console.input = c.console.input := by
  unfold printString
  split
  · exact input_print _ c
  · rfl

/-- A routine that waits for a byte has written its prompt, if it has one,
and no more. -/
theorem run_of_starved {t : Trap} {c : Core Script} (h : (t.run c).1 = .starved) :
    (t = .getc ∨ t = .prompt) ∧ c.console.input = [] ∧
      (t.run c).2 = print (if t = .prompt then promptText else []) c := by
  cases t with
  | getc =>
    cases hread : Console.readByte? c.console with
    | none =>
      simp only [run, hread]
      exact ⟨.inl trivial, Script.readByte?_eq_none_iff.1 hread, rfl⟩
    | some r => simp [run, hread] at h
  | prompt =>
    cases hread : Console.readByte? (print promptText c).console with
    | none =>
      have hinput := Script.readByte?_eq_none_iff.1 hread
      rw [input_print] at hinput
      simp only [run, hread]
      exact ⟨.inr trivial, hinput, rfl⟩
    | some r => simp [run, hread] at h
  | puts | putsp =>
    simp only [run, printString] at h
    split at h <;> cases h
  | out | halt => cases h

end LC3.Trap

namespace LC3.Machine

variable {κ : Type} [Console κ] {m : Machine κ}

/-- **A machine halts by the call of one routine** and by nothing else. -/
theorem step_eq_halted_iff (hrun : m.status = .running) :
    m.step.1 = .halted ↔ m.word.opcode = 15 ∧ m.word.lowByte = 0x25 := by
  rw [← Word.decode_eq_trap_iff]
  cases hstep : m.step with
  | mk o m' =>
    cases stepsTo_iff.2 hstep with
    | halted hm | faulted hm => exact nomatch hrun.symm.trans hm
    | instr _ hdecode | reserved _ hdecode => simp [hdecode]
    | ignored _ hdecode ht | unknown _ hdecode ht =>
      rw [hdecode, Decoded.trap.injEq]
      refine ⟨nofun, ?_⟩
      intro hvector
      subst hvector
      cases ht
    | @routine vector t _ hdecode ht =>
      -- a step answers `halted` for no other end than that of the routine that
      -- halts
      have hend : Outcome.ofEnd (t.run m.fetched.link).1 = .halted ↔
          (t.run m.fetched.link).1 = .halt := by
        cases (t.run m.fetched.link).1 <;> simp [Outcome.ofEnd]
      rw [hdecode, Decoded.trap.injEq]
      refine hend.trans (Trap.run_eq_halt_iff.trans ?_)
      constructor
      · intro h
        subst h
        exact UInt8.toNat_inj.1 (Trap.number_of_ofVector? ht).symm
      · intro h
        subst h
        exact (Option.some.inj ht).symm

/-- A step that does not finish its instruction is the call of a routine. The
equation says how far the routine got. -/
theorem routine_of_step (h : m.step.1 = .starved ∨ ∃ cycle, m.step.1 = .endless cycle) :
    m.status = .running ∧ ∃ vector t, m.word.decode = .trap vector ∧
      Trap.ofVector? vector = some t ∧
      m.step = (.ofEnd (t.run m.fetched.link).1,
        { m with
          toCore := (t.run m.fetched.link).2
          status := .ofEnd (t.run m.fetched.link).1 }) := by
  cases hstep : m.step with
  | mk o m' =>
    rw [hstep] at h
    cases stepsTo_iff.2 hstep with
    | halted | faulted | instr | reserved | ignored | unknown => simp at h
    | routine hm hdecode ht => exact ⟨hm, _, _, hdecode, ht, rfl⟩

end LC3.Machine
