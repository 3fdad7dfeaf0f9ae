import LC3.Proofs.Checks
import LC3.Proofs.Reads
import LC3.Proofs.TrapTable

/-!
# The one panic of a step

Of all the checks of a step one can fail: a routine may read a byte that the
script does not have. It is then in the middle of its work, with the call
behind it and its prompt written, and that is what is left. The step does not
try again: the next one fetches behind the call.

> `asksInVain_iff`, `printsForever_iff`: when a step waits, and when it
> prints without end;
> `leftAsking_of_step`: what a step that waits has done, field by field;
> `panics_only_for_input`: the checks of a step, all together.
-/

namespace LC3

/-- The same memory and the same unread input give the same word at any
address. -/
theorem Core.read_congr {c d : Core Script} (hmem : c.mem = d.mem)
    (hinput : c.console.input = d.console.input) (a : Word) : (c.read a).1 = (d.read a).1 := by
  obtain ⟨regs, mem, input, output⟩ := c
  obtain ⟨regs', mem', input', output'⟩ := d
  obtain rfl : mem = mem' := hmem
  obtain rfl : input = input' := hinput
  by_cases ha : a = kbsr
  · cases input with
    | nil => simp [ha, Core.poll]
    | cons b input => simp [ha, Core.poll, Console.readByte?]
  · simp [Core.read, ha]

namespace OutOfInput

open Checked

/-- The next step calls a routine that reads a byte, and there is none. -/
structure AsksInVain (p : Panel Script) : Prop where
  fault : p.fault = none
  halted : p.halted = false
  opcode : p.machine.word.opcode = 15
  vector : p.machine.word.toNat % 256 = 0x20 ∨ p.machine.word.toNat % 256 = 0x23
  input : p.console.input = []

/-- The next step calls a routine that prints a string, and no word of memory
ends it. -/
structure PrintsForever (p : Panel Script) : Prop where
  fault : p.fault = none
  halted : p.halted = false
  opcode : p.machine.word.opcode = 15
  vector : p.machine.word.toNat % 256 = 0x22 ∨ p.machine.word.toNat % 256 = 0x24
  peek : ∀ a, p.mem.peek a ≠ 0

/-- What is left of a step that has asked in vain: the call is behind it, and
of the routine nothing is done but its prompt. -/
structure LeftAsking (p p' : Panel Script) : Prop where
  pc : p'.regs.pc = p.regs.pc.place 1
  link : p'.regs.get 7 = p.regs.pc.place 1
  get : ∀ r : Reg, r ≠ 7 → p'.regs.get r = p.regs.get r
  cond : p'.regs.cond = p.regs.cond
  mem : p'.mem = p.mem
  input : p'.console.input = p.console.input
  output : p'.console.output.toList = p.console.output.toList ++
    if p.machine.word.toNat % 256 = 0x23 then TrapTable.ascii "Enter a character: " else []
  fault : p'.fault = none
  halted : p'.halted = false
  ignoreUnknownTraps : p'.ignoreUnknownTraps = p.ignoreUnknownTraps
  /-- The next step goes on behind the call. -/
  next : p'.machine.word = (p.toCore.read (p.regs.pc.place 1)).1

variable {p p' : Panel Script}

theorem status_eq_running_iff :
    p.machine.status = .running ↔ p.fault = none ∧ p.halted = false := by
  obtain ⟨core, halted, fault, ignore⟩ := p
  cases fault <;> cases halted <;> simp [Panel.machine, Panel.status]

theorem machine_step_fst (p : Panel Script) : p.machine.step.1 = p.step.1 :=
  congrArg Prod.fst p.machine_step

/-- **Exactly the steps that would wait for input ask in vain.** The fetch of
a call does not touch the script, and neither does the prompt. -/
theorem asksInVain_iff : AsksInVain p ↔ p.step.1 = .starved := by
  rw [← machine_step_fst]
  constructor
  · intro h
    have hrun := status_eq_running_iff.2 ⟨h.fault, h.halted⟩
    rcases h.vector with hnumber | hnumber
    · obtain ⟨hdecode, ht⟩ := Trap.decode_of_number (t := .getc) h.opcode hnumber
      exact Machine.starved_of_readsFrom ⟨hrun, _, _, hdecode, ht, .inl ⟨rfl, rfl⟩⟩
        (Script.readByte?_eq_none_iff.2 h.input)
    · obtain ⟨hdecode, ht⟩ := Trap.decode_of_number (t := .prompt) h.opcode hnumber
      refine Machine.starved_of_readsFrom ⟨hrun, _, _, hdecode, ht, .inr ⟨rfl, rfl⟩⟩ ?_
      rw [Script.readByte?_eq_none_iff, Script.flush_eq, Script.input_writeAll]
      exact h.input
  · intro h
    obtain ⟨hrun, vector, t, hdecode, ht, hcall⟩ := Machine.routine_of_step (.inl h)
    obtain ⟨hfault, hhalted⟩ := status_eq_running_iff.1 hrun
    obtain ⟨hopcode, hnumber⟩ := Trap.number_of_decode hdecode ht
    rw [hcall] at h
    -- the fetch of a call is no poll, so the script is as the routine has found it
    obtain ⟨hasks, hinput, -⟩ := Trap.run_of_starved (Outcome.ofEnd_inj (f := .starved) h)
    rw [(Machine.link_of_trap hdecode).2.1] at hinput
    obtain rfl | rfl := hasks
    · exact ⟨hfault, hhalted, hopcode, .inl hnumber, hinput⟩
    · exact ⟨hfault, hhalted, hopcode, .inr hnumber, hinput⟩

/-- **Exactly the steps whose string has no end do not return.** A step that
prints any other string has a zero word to stop at. -/
theorem printsForever_iff : PrintsForever p ↔ ∃ cycle, p.step.1 = .endless cycle := by
  rw [← machine_step_fst]
  constructor
  · intro h
    have hrun := status_eq_running_iff.2 ⟨h.fault, h.halted⟩
    -- the two routines that print a string do not return for the same reason
    have hcall (t : Trap) (hprints : t = .puts ∨ t = .putsp)
        (hnumber : p.machine.word.toNat % 256 = t.number) :
        ∃ cycle, p.machine.step.1 = .endless cycle := by
      obtain ⟨hdecode, ht⟩ := Trap.decode_of_number h.opcode hnumber
      have hmem := (Machine.link_of_trap hdecode).1
      obtain ⟨cycle, hcycle⟩ := Trap.run_eq_endless_iff.2 ⟨hprints, hmem ▸ h.peek⟩
      rw [Machine.step_of_routine hrun hdecode ht, hcycle]
      exact ⟨cycle, rfl⟩
    rcases h.vector with hnumber | hnumber
    · exact hcall .puts (.inl rfl) hnumber
    · exact hcall .putsp (.inr rfl) hnumber
  · rintro ⟨cycle, h⟩
    obtain ⟨hrun, vector, t, hdecode, ht, hcall⟩ := Machine.routine_of_step (.inr ⟨cycle, h⟩)
    obtain ⟨hfault, hhalted⟩ := status_eq_running_iff.1 hrun
    obtain ⟨hopcode, hnumber⟩ := Trap.number_of_decode hdecode ht
    rw [hcall] at h
    obtain ⟨hprints, hpeek⟩ :=
      Trap.run_eq_endless_iff.1 ⟨cycle, Outcome.ofEnd_inj (f := .endless cycle) h⟩
    rw [(Machine.link_of_trap hdecode).1] at hpeek
    obtain rfl | rfl := hprints
    · exact ⟨hfault, hhalted, hopcode, .inl hnumber, hpeek⟩
    · exact ⟨hfault, hhalted, hopcode, .inr hnumber, hpeek⟩

/-- The step has kept the link and gone into the routine as far as its
prompt. -/
theorem leftAsking_of_step (h : p.step.1 = .starved) : LeftAsking p p.step.2 := by
  have hleft : p.machine.step.2 = p.step.2.machine := congrArg Prod.snd p.machine_step
  have hstarved : p.machine.step.1 = .starved := (machine_step_fst p).trans h
  have hrunning : p.step.2.machine.status = .running := by
    rw [← hleft, Machine.status_step, hstarved]
    rfl
  obtain ⟨-, vector, t, hdecode, ht, hcall⟩ := Machine.routine_of_step (.inl hstarved)
  obtain ⟨hmem, hconsole, -⟩ := Machine.link_of_trap hdecode
  obtain ⟨-, hnumber⟩ := Trap.number_of_decode hdecode ht
  rw [hcall] at hstarved hleft
  obtain ⟨hasks, -, hrun⟩ := Trap.run_of_starved (Outcome.ofEnd_inj (f := .starved) hstarved)
  -- the core is the one the routine was called with, but for the prompt
  have hcore : p.step.2.toCore =
      Trap.print (if t = .prompt then Trap.promptText else []) p.machine.fetched.link :=
    (congrArg Machine.toCore hleft).symm.trans hrun
  rw [Trap.print_eq, hconsole] at hcore
  have hregs : p.step.2.regs = p.machine.fetched.link.regs := by rw [hcore]
  have hmem' : p.step.2.mem = p.mem := by
    rw [hcore]
    exact hmem
  have hinput : p.step.2.console.input = p.console.input := by
    rw [hcore]
    rfl
  have houtput : p.step.2.console.output.toList =
      p.console.output.toList ++ if t = .prompt then Trap.promptText else [] := by
    rw [hcore]
    exact Array.toList_appendList
  have hpc : p.step.2.regs.pc = p.regs.pc.place 1 := by
    rw [hregs]
    rfl
  constructor
  · exact hpc
  · rw [hregs]
    exact Registers.get_set_self _ 7 _
  · intro r hr
    rw [hregs]
    exact (Registers.get_set _ 7 r _).trans ((if_neg hr).trans
      (congrArg (·.get r) p.machine.regs_fetched))
  · rw [hregs]
    show p.machine.fetched.regs.cond = _
    rw [Machine.regs_fetched]
    rfl
  · exact hmem'
  · exact hinput
  · rw [houtput, hnumber, TrapTable.promptText_eq]
    obtain rfl | rfl := hasks <;> rfl
  · exact (status_eq_running_iff.1 hrunning).1
  · exact (status_eq_running_iff.1 hrunning).2
  · exact (congrArg Machine.ignoreUnknownTraps hleft).symm
  · rw [← hpc]
    exact Core.read_congr hmem' hinput _

/-- The only panic is the one for input. -/
theorem stepEval_eq_error_iff {r : Outcome × Panel Script} {e : Panic} :
    stepEval r = some (.error e, p') ↔ e = .outOfInput ∧ r = (.starved, p') := by
  obtain ⟨o, q⟩ := r
  cases o <;> simp [stepEval, eq_comm]

/-- What does not come to an end has no value, however many turns it is
given. -/
theorem stepEval_eq_none_iff {r : Outcome × Panel Script} :
    stepEval r = none ↔ ∃ cycle, r.1 = .endless cycle := by
  obtain ⟨o, q⟩ := r
  cases o <;> simp [stepEval]

theorem stepEval_eq_ok_iff {r : Outcome × Panel Script} {o : Outcome} :
    stepEval r = some (.ok o, p') ↔
      r = (o, p') ∧ r.1 ≠ .starved ∧ ¬ ∃ cycle, r.1 = .endless cycle := by
  obtain ⟨o', q⟩ := r
  cases o' <;> simp [stepEval]

/-- **A step panics for want of input and for nothing else.** Every shift,
difference, index, width and case of it is in order, whatever the word and
the state. It panics exactly if it calls a routine that reads a byte of a
script that has none left, and then leaves the machine running behind the
call, with the prompt written if there is one. It fails to come to an end
exactly if it prints a string that has none. Otherwise it answers, and does
what a step does. -/
theorem panics_only_for_input (p : Panel Script) :
    ((∃ e p', ComesTo step p (.error e) p') ↔ AsksInVain p) ∧
    (∀ e p', ComesTo step p (.error e) p' → e = .outOfInput ∧ LeftAsking p p') ∧
    ((¬ ∃ r p', ComesTo step p r p') ↔ PrintsForever p) ∧
    ∀ o p', ComesTo step p (.ok o) p' ↔
      p.step = (o, p') ∧ ¬ AsksInVain p ∧ ¬ PrintsForever p := by
  have hcomes {r : Except Panic Outcome} {p' : Panel Script} :
      ComesTo step p r p' ↔ stepEval p.step = some (r, p') := (settles_step p).comesTo_iff
  -- all four statements are now about what the panel answers
  simp only [hcomes, stepEval_eq_error_iff, asksInVain_iff, printsForever_iff]
  refine ⟨?_, ?_, ?_, ?_⟩
  · constructor
    · rintro ⟨e, p', -, h⟩
      rw [h]
    · intro h
      exact ⟨.outOfInput, p.step.2, rfl, Prod.ext h rfl⟩
  · rintro e p' ⟨he, h⟩
    have hleft := leftAsking_of_step (p := p) (by rw [h])
    rw [h] at hleft
    exact ⟨he, hleft⟩
  · rw [← stepEval_eq_none_iff]
    cases hstep : stepEval p.step with
    | none => simp
    | some r =>
      obtain ⟨r, p'⟩ := r
      simp
  · intro o p'
    exact stepEval_eq_ok_iff

/-- IN at the last address, with bits 11 to 8 set and nothing to read. -/
def asking : Panel Script :=
  { Panel.initial {} with
    regs := { Registers.initial with pc := 0xFFFF }
    mem := Memory.zeroed.write 0xFFFF 0xFA23 }

/-- The counter has gone round to address 0, and the prompt stands in the
output. -/
theorem panics_only_for_input_asking :
    ∃ p', ComesTo step asking (.error .outOfInput) p' ∧ p'.regs.pc = 0 ∧ p'.regs.get 7 = 0 ∧
      p'.console.output.toList = TrapTable.ascii "Enter a character: " ∧
      p'.machine.word = 0 ∧ p'.fault = none ∧ p'.halted = false := by
  have hword : asking.machine.word = 0xFA23 :=
    Machine.word_about (by decide) _ ({} : Script)
  have hasks : AsksInVain asking :=
    ⟨rfl, rfl, by rw [hword]; decide, .inr (by rw [hword]; decide), rfl⟩
  obtain ⟨hpanics, hleft, -⟩ := panics_only_for_input asking
  obtain ⟨e, p', hcomes⟩ := hpanics.2 hasks
  obtain ⟨rfl, h⟩ := hleft e p' hcomes
  refine ⟨p', hcomes, h.pc, h.link, ?_, ?_, h.fault, h.halted⟩
  · have houtput := h.output
    rw [hword] at houtput
    exact houtput
  · have hzero : asking.regs.pc.place 1 = 0 := by decide
    rw [h.next, hzero, Core.read_of_ne _ (by decide)]
    exact (Memory.peek_write _ _ _ _).trans ((if_neg (by decide)).trans (Memory.peek_zeroed 0))

end OutOfInput
end LC3
