import LC3.Console.Script
import LC3.Interface
import LC3.Proofs.History
import LC3.Proofs.InstructionSet
import LC3.Proofs.Routines

/-!
# What the condition code describes

Some instructions leave a result in a register and set the flag by it; the
others, and everything a user does between steps, let the flag be. The result
may be gone by the time a branch looks at the flag: a call keeps its link in
register 7, whatever was there. So what the flag describes is not a register
but the last result, which is carried along beside the machine
(`lastResult`).

> `cond_step`: a step that has a result leaves the flag of that result, and
> any other step leaves the flag it found;
> `describes_last_result`: after any steps, loads and input the flag is the
> sign of the last result, and a branch goes by it.

Which register has the result of a step is read off the fetched word
(`Word.resultReg?`), and the result is what is in that register behind the
step.
-/

namespace LC3

/-- The register for the result: the destination of ADD, LD, AND, LDR, NOT,
LDI and LEA, and register 0 for GETC and IN. All other words have none. -/
def Word.resultReg? (w : Word) : Option Reg :=
  match w.opcode with
  | 0x1 | 0x2 | 0x5 | 0x6 | 0x9 | 0xA | 0xE => some (w.regAt 9)
  | 0xF => if w.toNat % 256 = 0x20 ∨ w.toNat % 256 = 0x23 then some 0 else none
  | _ => none

/-- The register for the result of an instruction. -/
def Instr.dst? : Instr → Option Reg
  | .add dst _ _ | .and dst _ _ | .not dst _ => some dst
  | .ld dst _ | .ldi dst _ | .ldr dst _ _ | .lea dst _ => some dst
  | .br .. | .st .. | .sti .. | .str .. | .jmp _ | .jsr _ | .jsrr _ => none

/-- The register for the result of a routine. -/
def Trap.dst? : Trap → Option Reg
  | .getc | .prompt => some 0
  | .out | .puts | .putsp | .halt => none

namespace ConditionCode

open History

variable {κ : Type} [Console κ]

/-- The result that the next step leaves in a register; none if the step is
not completed. -/
def result? (m : Machine κ) : Option Word :=
  if m.step.1 = .running then m.word.resultReg?.map m.step.2.regs.get else none

/-- What may happen to a machine while its program runs. -/
inductive Event (κ : Type) where
  | step
  | edit (e : Edit κ)
  | ignoreUnknownTraps (setting : Bool)

/-- The machine behind an event. -/
def Event.apply (m : Machine κ) : Event κ → Machine κ
  | .step => m.step.2
  | .edit e => { m with toCore := e.apply m.toCore }
  | .ignoreUnknownTraps setting => { m with ignoreUnknownTraps := setting }

/-- The last result, if it was `v` before the event. -/
def Event.result (m : Machine κ) (v : Word) : Event κ → Word
  | .step => (result? m).getD v
  | .edit _ | .ignoreUnknownTraps _ => v

/-- The last result behind several events, if it was `v` before them. -/
def lastResult (m : Machine κ) (v : Word) (events : List (Event κ)) : Word :=
  carried Event.apply Event.result m v events

/-- The machine behind the branch that it is about to carry out, if it jumps
and if it does not. -/
def branch (m : Machine κ) (jumps : Bool) : Machine κ :=
  let next := m.regs.pc.place 1
  let target := if jumps then .wrap (next.toNat + m.word.signed 9) else next
  { m with toCore := m.fetched.jump target }

/-- The machine is about to carry out a branch, and has the registers of the
other. -/
structure BranchesFrom (m m' : Machine κ) : Prop where
  running : m'.status = .running
  regs : m'.regs = m.regs
  opcode : m'.word.opcode = 0

/-- What one branch asks for is what the other does not ask for, sign by
sign. -/
def Complementary (w w' : Word) : Prop := ∀ i, 9 ≤ i → i ≤ 11 → (w.HasBit i ↔ ¬ w'.HasBit i)

/-! ## The flag behind one step -/

/-- The flag behind a step that has this result, or none, if the flag was
`old`. -/
def flagFrom (old : Flag) : Option Word → Flag
  | some v => .of v
  | none => old

/-- A flag that was the sign of the last result is the sign of the last
result again. -/
theorem flagFrom_of (v : Word) (result : Option Word) :
    flagFrom (.of v) result = .of (result.getD v) := by
  cases result <;> rfl

/-- An instruction that has a result takes the flag from where it has put it.
That is so even if the register was a source as well, because the flag is set
behind the write. -/
theorem cond_exec (c : Core κ) (i : Instr) :
    (c.exec i).regs.cond = flagFrom c.regs.cond (i.dst?.map (c.exec i).regs.get) := by
  cases i with
  | add | and | not | ld | ldi | ldr | lea => rfl
  | st | str | jmp | jsr | jsrr => rfl
  | sti src offset => exact congrArg Registers.cond (Core.regs_read c (c.regs.pc + offset))
  | br nzp offset =>
    show (if c.regs.cond.bits &&& nzp = 0 then c else c.jump _).regs.cond = c.regs.cond
    split
    · rfl
    · rfl

/-- Only a routine that reads a character has a result, and only if there is
one to read. -/
theorem cond_run {t : Trap} {c d : Core κ} {e : Trap.End} (h : t.run c = (e, d)) :
    d.regs.cond = flagFrom c.regs.cond (if e = .resume then t.dst?.map d.regs.get else none) := by
  cases t with
  | getc | prompt =>
    simp only [Trap.run] at h
    split at h
    · cases h
      rfl
    · cases h
      rfl
  | puts | putsp =>
    have hregs : _ = d.regs := congrArg (fun answer => answer.2.regs) h
    rw [Trap.dst?, Option.map_none, ite_self]
    exact congrArg Registers.cond (hregs.symm.trans (Trap.frame_printString _ c).1)
  | out | halt =>
    cases h
    rfl

/-- The word and the instruction that it stands for name the same register.
The two calls share an opcode, and neither has a result. -/
theorem resultReg?_of_instr {w : Word} {i : Instr} (h : w.decode = .instr i) :
    w.resultReg? = i.dst? := by
  unfold Word.resultReg?
  rw [← Word.toNat_toField_of w, ← Word.dst_eq_regAt]
  unfold Word.decode at h
  cases hop : Opcode.of w <;> rw [hop] at h <;>
    simp only [Decoded.instr.injEq, reduceCtorEq] at h
  case jsr =>
    -- both calls are without a result
    subst h
    by_cases hbit : w.getLsbD 11
    · rw [if_pos hbit]
      rfl
    · rw [if_neg hbit]
      rfl
  all_goals
    subst h
    rfl

/-- The two vectors with a result are those of the routines that read a
character, and a vector without a routine is neither. -/
theorem resultReg?_of_trap {w : Word} {vector : UInt8} (h : w.decode = .trap vector) :
    w.resultReg? = (Trap.ofVector? vector).bind Trap.dst? := by
  obtain ⟨hopcode, hlow⟩ := Word.decode_eq_trap_iff.1 h
  unfold Word.resultReg?
  rw [hopcode, ← Word.toNat_lowByte, hlow]
  cases ht : Trap.ofVector? vector with
  | none =>
    refine if_neg fun hreads => ?_
    have hfound : ∃ t, Trap.ofVector? vector = some t ∧ t.number = vector.toNat :=
      Trap.ofVector?_of_number (by omega)
    obtain ⟨t, hsome, -⟩ := hfound
    rw [ht] at hsome
    cases hsome
  | some t =>
    rw [← Trap.number_of_ofVector? ht]
    cases t <;> rfl

theorem cond_fetched (m : Machine κ) : m.fetched.regs.cond = m.regs.cond := by
  rw [m.regs_fetched]

/-- **What a step does to the flag.** One case for each kind of step: only
two of them can have a result, an instruction and a routine that returns. -/
theorem cond_step (m : Machine κ) : m.step.2.regs.cond = flagFrom m.regs.cond (result? m) := by
  have hfetched := cond_fetched m
  unfold result?
  cases hstep : m.step with
  | mk o m' =>
    cases Machine.stepsTo_iff.2 hstep with
    | halted | faulted => rfl
    | reserved | unknown => exact hfetched
    | instr hm hdecode =>
      rw [if_pos rfl, resultReg?_of_instr hdecode, ← hfetched]
      exact cond_exec m.fetched _
    | ignored hm hdecode ht =>
      rw [if_pos rfl, resultReg?_of_trap hdecode, ht]
      exact hfetched
    -- a routine that could not be completed has left the flag, and the step has no
    -- result
    | @routine vector t hm hdecode ht =>
      rw [resultReg?_of_trap hdecode, ht, ← hfetched]
      show (t.run m.fetched.link).2.regs.cond = _
      cases hrun : t.run m.fetched.link with
      | mk e d =>
        rw [cond_run hrun]
        cases e <;> rfl

/-! ## The flag behind many events -/

theorem regs_edit (e : Edit κ) (c : Core κ) : (e.apply c).regs = c.regs := by
  cases e with
  | loadImage s =>
    show (c.load (Image.ofStream s)).2.regs = c.regs
    cases Image.ofStream s <;> rfl
  | loadFile path opened =>
    show (c.load (Image.ofFile path opened)).2.regs = c.regs
    cases Image.ofFile path opened <;> rfl
  | read a => exact Core.regs_read c a
  | write | console => rfl

/-- One event: only a step that is completed may have a result, and it leaves
the flag for it. -/
theorem cond_event {m : Machine κ} {v : Word} (h : m.regs.cond = .of v) (event : Event κ) :
    (event.apply m).regs.cond = .of (event.result m v) := by
  cases event with
  | step => exact (cond_step m).trans (h ▸ flagFrom_of v (result? m))
  | edit e => exact (congrArg Registers.cond (regs_edit e m.toCore)).trans h
  | ignoreUnknownTraps => exact h

theorem cond_after {m : Machine κ} {v : Word} (h : m.regs.cond = .of v) (events : List (Event κ)) :
    (after Event.apply m events).regs.cond = .of (lastResult m v events) :=
  keeps_carried (I := fun (m : Machine κ) (v : Word) => m.regs.cond = .of v)
    (fun event h => cond_event h event) events h

/-- A branch adds its offset to the program counter behind it if it asks for
the flag, and goes on in line if not. It leaves the registers and the flag
alone. -/
theorem step_of_branch {m : Machine κ} (hrun : m.status = .running) (hop : m.word.opcode = 0) :
    m.step = (.running, branch m (m.word.HasBit m.regs.cond.branchBit)) := by
  obtain ⟨i, hdecode⟩ := InstructionSet.decode_of_opcode (w := m.word) (by rw [hop]; decide)
  have hexec := (InstructionSet.executes_iff hdecode m.fetched (m.fetched.exec i)).2 rfl
  unfold InstructionSet.Executes at hexec
  rw [hop] at hexec
  have hgoes := InstructionSet.goesTo_iff.1 hexec
  rw [Machine.step_of_instr hrun hdecode, hgoes, cond_fetched]
  by_cases hbit : m.word.HasBit m.regs.cond.branchBit
  · rw [if_pos hbit, decide_eq_true hbit]
    rfl
  · rw [if_neg hbit, decide_eq_false hbit]
    rfl

/-- **The condition code describes the last result, and branches obey it.**
However a new machine has been stepped, and whatever has been loaded, written
and brought in between, the flag is the sign of the last result, or of 0 if
there has been none. A branch from there jumps exactly if it asks for that
sign, and of two branches with complementary masks exactly one jumps. -/
theorem describes_last_result (console : κ) (events : List (Event κ)) :
    let m := after Event.apply (.initial console) events
    let sign := Flag.ofSign (lastResult (.initial console) 0 events).toInt
    m.regs.cond = sign ∧
    (∀ m', BranchesFrom m m' →
      m'.step = (.running, branch m' (m'.word.HasBit sign.branchBit))) ∧
    (∀ m₁ m₂, BranchesFrom m m₁ → BranchesFrom m m₂ → Complementary m₁.word m₂.word →
      ∃ jumps, m₁.step = (.running, branch m₁ jumps) ∧ m₂.step = (.running, branch m₂ !jumps)) := by
  intro m sign
  have hcond : m.regs.cond = sign := by
    exact (cond_after rfl events).trans (Flag.of_eq_ofSign _)
  have hbranch : ∀ m', BranchesFrom m m' →
      m'.step = (.running, branch m' (m'.word.HasBit sign.branchBit)) := by
    intro m' h
    rw [← hcond, ← h.regs]
    exact step_of_branch h.running h.opcode
  refine ⟨hcond, hbranch, ?_⟩
  intro m₁ m₂ h₁ h₂ hmasks
  -- the sign has one of the three bits of the mask, so the masks differ in it
  have hrange : 9 ≤ sign.branchBit ∧ sign.branchBit ≤ 11 := by
    cases sign <;> decide
  have hiff := hmasks sign.branchBit hrange.1 hrange.2
  refine ⟨m₁.word.HasBit sign.branchBit, hbranch m₁ h₁, ?_⟩
  rw [hbranch m₂ h₂]
  by_cases hbit : m₂.word.HasBit sign.branchBit
  · rw [decide_eq_true hbit, decide_eq_false fun h => hiff.1 h hbit]
    rfl
  · rw [decide_eq_false hbit, decide_eq_true (hiff.2 hbit)]
    rfl

/-- The machine with `w` to be fetched next. -/
def facing (m : Machine κ) (w : Word) : Machine κ := { m with mem := m.mem.write m.regs.pc w }

/-- A branch that is put where the machine stands is the next word it
fetches. -/
theorem branchesFrom_facing {m : Machine κ} (hrun : m.status = .running) (hpc : m.regs.pc ≠ kbsr)
    {w : Word} (h : w.opcode = 0) : (facing m w).word = w ∧ BranchesFrom m (facing m w) := by
  have hword : (facing m w).word = w := by
    rw [(Machine.word_of_pc_ne (m := facing m w) hpc).1]
    exact Memory.peek_write_self m.mem m.regs.pc w
  exact ⟨hword, hrun, rfl, by rw [hword, h]⟩

/-- ADD R0, R0, #-1 is put where a new machine starts, and carried out. -/
def countDown : List (Event Script) := [.edit (.write 0x3000 0x103F), .step]

def countedDown : Machine Script := after Event.apply (.initial {}) countDown

theorem step_countDown :
    (Machine.about 0x3000 0x103F ({} : Script)).step =
      (.running, { Machine.about 0x3000 0x103F ({} : Script) with
        toCore := ((Machine.about 0x3000 0x103F ({} : Script)).toCore.jump 0x3001).exec
          (.add 0 0 (.imm 0xFFFF)) }) := by
  have hpc : (Machine.about 0x3000 0x103F ({} : Script)).regs.pc ≠ kbsr := by decide
  have hdecode : (Machine.about 0x3000 0x103F ({} : Script)).word.decode =
      .instr (.add 0 0 (.imm 0xFFFF)) := by
    rw [Machine.word_about (by decide)]
    decide
  rw [Machine.step_of_instr rfl hdecode, (Machine.word_of_pc_ne hpc).2]
  rfl

/-- The word is where the machine starts, and nothing else is in memory. -/
theorem apply_countDown : Event.apply (.initial ({} : Script)) (.edit (.write 0x3000 0x103F)) =
    Machine.about 0x3000 0x103F {} := rfl

theorem lastResult_countDown : lastResult (.initial ({} : Script)) 0 countDown = 0xFFFF := by
  rw [lastResult, countDown, carried, carried, carried, apply_countDown, Event.result, result?,
    step_countDown, if_pos rfl, Machine.word_about (by decide)]
  rfl

theorem running_countedDown : countedDown.status = .running ∧ countedDown.regs.pc ≠ kbsr := by
  rw [countedDown, countDown, after, List.foldl_cons, apply_countDown, List.foldl_cons,
    List.foldl_nil, Event.apply, step_countDown]
  exact ⟨rfl, by decide⟩

/-- Behind a result of -1 BRn jumps, and of BRn and BRzp only one does. -/
theorem describes_last_result_countDown :
    BranchesFrom countedDown (facing countedDown 0x0802) ∧
    BranchesFrom countedDown (facing countedDown 0x0602) ∧
    Complementary (facing countedDown 0x0802).word (facing countedDown 0x0602).word ∧
    countedDown.regs.cond = .n ∧
    (facing countedDown 0x0802).step = (.running, branch (facing countedDown 0x0802) true) ∧
    ∃ jumps,
      (facing countedDown 0x0802).step = (.running, branch (facing countedDown 0x0802) jumps) ∧
      (facing countedDown 0x0602).step = (.running, branch (facing countedDown 0x0602) !jumps) := by
  obtain ⟨hword₁, h₁⟩ := branchesFrom_facing running_countedDown.1 running_countedDown.2
    (w := 0x0802) (by decide)
  obtain ⟨hword₂, h₂⟩ := branchesFrom_facing running_countedDown.1 running_countedDown.2
    (w := 0x0602) (by decide)
  have hmasks :
      Complementary (facing countedDown 0x0802).word (facing countedDown 0x0602).word := by
    rw [hword₁, hword₂]
    intro i hlow hhigh
    obtain rfl | rfl | rfl : i = 9 ∨ i = 10 ∨ i = 11 := by omega
    all_goals decide
  have hsign : Flag.ofSign (0xFFFF : Word).toInt = .n := by decide
  have hcounted := describes_last_result ({} : Script) countDown
  have hbehind : countedDown = after Event.apply (.initial {}) countDown := rfl
  rw [lastResult_countDown, hsign, ← hbehind] at hcounted
  obtain ⟨hcond, hbranch, hpair⟩ := hcounted
  have hjumps := hbranch _ h₁
  rw [hword₁, decide_eq_true (show (0x0802 : Word).HasBit Flag.n.branchBit by decide)] at hjumps
  exact ⟨h₁, h₂, hmasks, hcond, hjumps, hpair _ _ h₁ h₂ hmasks⟩

end ConditionCode

end LC3
