import LC3.Machine
import LC3.Proofs.Fields

/-!
# One step, kind by kind

`Machine.step` fetches, decodes and branches on what the word is. This file
names the two things that every statement about a running machine starts
from, the fetched `word` and the core that is left by the fetch (`fetched`),
and gives one equation for each kind of word. A proof about a step picks its
equation and never opens `step` again.

A fetch is a read, so a program counter on the keyboard status register polls
the keyboard. Then the word is one of two (`word_of_pc_eq_kbsr`), and neither
is a call of a trap routine: a machine that calls one has fetched an ordinary
word and has changed nothing by it.
-/

namespace LC3

namespace Word

/-- The opcode alone makes a word a call of a trap, and its low byte says of
which. -/
theorem decode_eq_trap_iff {w : Word} {vector : UInt8} :
    w.decode = .trap vector ↔ w.opcode = 15 ∧ w.lowByte = vector := by
  have hnum := toNat_toField_of w
  unfold decode
  cases hop : Opcode.of w <;> rw [hop] at hnum
  case trap =>
    simp only [Decoded.trap.injEq]
    -- the opcode is known here, so only the vectors are left to compare
    exact ⟨fun h => ⟨hnum.symm, h⟩, fun h => h.2⟩
  -- every other opcode has another number
  all_goals
    refine ⟨nofun, ?_⟩
    intro ⟨h, _⟩
    rw [h] at hnum
    exact absurd hnum (by decide)

theorem toNat_lowByte (w : Word) : w.lowByte.toNat = w.toNat % 256 :=
  BitVec.extractLsb'_toNat 0 8 w

end Word

/-- What a step answers when the routine it calls ends. -/
def Outcome.ofEnd : Trap.End → Outcome
  | .resume => .running
  | .halt => .halted
  | .starved => .starved
  | .endless cycle => .endless cycle

theorem Outcome.ofEnd_inj {e f : Trap.End} (h : ofEnd e = ofEnd f) : e = f := by
  cases e <;> cases f <;> cases h <;> rfl

/-- The status of a running machine when the routine it calls ends. -/
def Status.ofEnd : Trap.End → Status
  | .halt => .halted
  | .resume | .starved | .endless _ => .running

/-- The status of a machine that has answered a step like this. -/
def Status.ofOutcome : Outcome → Status
  | .halted => .halted
  | .fault f => .faulted f
  | .running | .starved | .endless _ => .running

/-- The status that a routine leaves is the one that its answer stands for. -/
theorem Status.ofOutcome_ofEnd (e : Trap.End) : ofOutcome (.ofEnd e) = .ofEnd e := by
  cases e <;> rfl

/-- Only a fault makes the status a fault, and the fault is kept as it was
reported. -/
theorem Status.ofOutcome_eq_faulted_iff {o : Outcome} {f : Fault} :
    ofOutcome o = .faulted f ↔ o = .fault f := by
  cases o <;> simp [ofOutcome]

namespace Machine

variable {κ : Type} [Console κ]

/-- The word that the next step decodes: what a read at the program counter
gives. -/
def word (m : Machine κ) : Word := (m.toCore.read m.regs.pc).1

/-- The core after that read, with the program counter moved on, from 65535
to 0. -/
def fetched (m : Machine κ) : Core κ :=
  (m.toCore.read m.regs.pc).2.jump (m.regs.pc.place 1)

theorem fetch_eq (m : Machine κ) : m.toCore.fetch = (m.word, m.fetched) := by
  rw [fetched, Word.place_eq_add]
  rfl

/-! ## The kinds of word -/

/-- The word is an instruction: it is carried out on the fetched core, and
the machine goes on. -/
theorem step_of_instr {m : Machine κ} (hrun : m.status = .running) {i : Instr}
    (h : m.word.decode = .instr i) :
    m.step = (.running, { m with toCore := m.fetched.exec i }) := by
  unfold step
  rw [hrun, fetch_eq]
  simp only [h]

/-- The word calls a trap, whichever it is. The two cases are
`step_of_routine` and `step_of_unknown`. -/
theorem step_of_trap {m : Machine κ} (hrun : m.status = .running) {vector : UInt8}
    (h : m.word.decode = .trap vector) :
    m.step = callTrap { m with toCore := m.fetched } vector m.regs.pc := by
  unfold step
  rw [hrun, fetch_eq]
  simp only [h]

/-- The word is reserved: the fault names the opcode, the whole word and
where it was found. -/
theorem step_of_reserved {m : Machine κ} (hrun : m.status = .running) {opcode : UInt8}
    (h : m.word.decode = .reserved opcode) :
    m.step = fail { m with toCore := m.fetched } (.reservedOpcode opcode m.word m.regs.pc) := by
  unfold step
  rw [hrun, fetch_eq]
  simp only [h]

/-- The word calls a routine: the link is kept, the routine runs, and its end
is the answer. -/
theorem step_of_routine {m : Machine κ} (hrun : m.status = .running) {vector : UInt8} {t : Trap}
    (h : m.word.decode = .trap vector) (ht : Trap.ofVector? vector = some t) :
    m.step = (.ofEnd (t.run m.fetched.link).1,
      { m with
        toCore := (t.run m.fetched.link).2
        status := .ofEnd (t.run m.fetched.link).1 }) := by
  rw [step_of_trap hrun h]
  unfold callTrap
  rw [ht]
  cases hend : t.run m.fetched.link with
  | mk e core => cases e <;> simp [hend, Outcome.ofEnd, Status.ofEnd, hrun]

/-- The word calls a trap that has no routine: only the link is kept. -/
theorem step_of_unknown {m : Machine κ} (hrun : m.status = .running) {vector : UInt8}
    (h : m.word.decode = .trap vector) (ht : Trap.ofVector? vector = none) :
    m.step =
      if m.ignoreUnknownTraps then (.running, { m with toCore := m.fetched.link })
      else fail { m with toCore := m.fetched.link } (.unknownTrap vector m.regs.pc) := by
  rw [step_of_trap hrun h]
  unfold callTrap
  rw [ht]

/-! ## All kinds at once -/

/-- A step of `m` may answer this and leave that: one case for each kind of
machine and of word. -/
inductive StepsTo (m : Machine κ) : Outcome → Machine κ → Prop where
  | halted (hm : m.status = .halted) : StepsTo m .halted m
  | faulted {f : Fault} (hm : m.status = .faulted f) : StepsTo m (.fault f) m
  | instr {i : Instr} (hm : m.status = .running) (hdecode : m.word.decode = .instr i) :
    StepsTo m .running { m with toCore := m.fetched.exec i }
  | reserved {opcode : UInt8} (hm : m.status = .running)
    (hdecode : m.word.decode = .reserved opcode) :
    StepsTo m (.fault (.reservedOpcode opcode m.word m.regs.pc))
      { m with
        toCore := m.fetched
        status := .faulted (.reservedOpcode opcode m.word m.regs.pc) }
  | ignored {vector : UInt8} (hm : m.status = .running) (hdecode : m.word.decode = .trap vector)
    (ht : Trap.ofVector? vector = none) (hignores : m.ignoreUnknownTraps = true) :
    StepsTo m .running { m with toCore := m.fetched.link }
  | unknown {vector : UInt8} (hm : m.status = .running) (hdecode : m.word.decode = .trap vector)
    (ht : Trap.ofVector? vector = none) (hstops : m.ignoreUnknownTraps = false) :
    StepsTo m (.fault (.unknownTrap vector m.regs.pc))
      { m with toCore := m.fetched.link, status := .faulted (.unknownTrap vector m.regs.pc) }
  | routine {vector : UInt8} {t : Trap} (hm : m.status = .running)
    (hdecode : m.word.decode = .trap vector) (ht : Trap.ofVector? vector = some t) :
    StepsTo m (.ofEnd (t.run m.fetched.link).1)
      { m with
        toCore := (t.run m.fetched.link).2
        status := .ofEnd (t.run m.fetched.link).1 }

/-- Each case is what a step does. -/
theorem StepsTo.step_eq {m m' : Machine κ} {o : Outcome} (h : StepsTo m o m') :
    m.step = (o, m') := by
  cases h with
  | halted hm => exact step_of_halted hm
  | faulted hm => exact step_of_faulted hm
  | instr hm hdecode => exact step_of_instr hm hdecode
  | reserved hm hdecode => exact step_of_reserved hm hdecode
  | ignored hm hdecode ht hignores => rw [step_of_unknown hm hdecode ht, if_pos hignores]
  | unknown hm hdecode ht hstops =>
    rw [step_of_unknown hm hdecode ht, if_neg (ne_true_of_eq_false hstops)]
    rfl
  | routine hm hdecode ht => exact step_of_routine hm hdecode ht

/-- **What a step can do**: one of these, and it has one of them to do. The
case split follows the program, from the status to the opcode to the vector. -/
theorem stepsTo_step (m : Machine κ) : StepsTo m m.step.1 m.step.2 := by
  -- it is enough that some case applies, since every case is what the step does
  suffices h : ∃ o m', StepsTo m o m' by
    obtain ⟨o, m', h⟩ := h
    rw [h.step_eq]
    exact h
  cases hm : m.status with
  | halted => exact ⟨_, _, .halted hm⟩
  | faulted f => exact ⟨_, _, .faulted hm⟩
  | running =>
    cases hdecode : m.word.decode with
    | instr i => exact ⟨_, _, .instr hm hdecode⟩
    | reserved opcode => exact ⟨_, _, .reserved hm hdecode⟩
    | trap vector =>
      cases ht : Trap.ofVector? vector with
      | some t => exact ⟨_, _, .routine hm hdecode ht⟩
      | none =>
        cases hset : m.ignoreUnknownTraps with
        | true => exact ⟨_, _, .ignored hm hdecode ht hset⟩
        | false => exact ⟨_, _, .unknown hm hdecode ht hset⟩

/-- A step has one answer, so the cases exclude each other: a proof may go
through them with `cases` and find the step rewritten in each. -/
theorem stepsTo_iff {m m' : Machine κ} {o : Outcome} : StepsTo m o m' ↔ m.step = (o, m') := by
  constructor
  · exact fun h => h.step_eq
  · intro h
    have hstep := m.stepsTo_step
    rw [h] at hstep
    exact hstep

/-- What a step answers is what its machine is from then on. -/
theorem status_step (m : Machine κ) : m.step.2.status = .ofOutcome m.step.1 := by
  cases hstep : m.step with
  | mk o m' =>
    cases stepsTo_iff.2 hstep with
    | halted hm | faulted hm | instr hm _ | ignored hm _ _ _ => exact hm
    | reserved | unknown => rfl
    | routine => exact (Status.ofOutcome_ofEnd _).symm

/-! ## A fetch from the keyboard status register -/

/-- Elsewhere a fetch gives the word that is in memory and only moves the
program counter. -/
theorem word_of_pc_ne {m : Machine κ} (h : m.regs.pc ≠ kbsr) :
    m.word = m.mem.peek m.regs.pc ∧
      m.fetched = m.toCore.jump (m.regs.pc.place 1) := by
  rw [word, fetched, Core.read_of_ne m.toCore h]
  exact ⟨rfl, rfl⟩

/-- The fetch moves the program counter and no other register. -/
theorem regs_fetched (m : Machine κ) :
    m.fetched.regs = { m.regs with pc := m.regs.pc.place 1 } := by
  show { (m.toCore.read m.regs.pc).2.regs with pc := m.regs.pc.place 1 } = _
  rw [Core.regs_read]

/-- What has been fetched is in memory behind the fetch, a poll included. -/
theorem peek_fetched (m : Machine κ) : m.fetched.mem.peek m.regs.pc = m.word := rfl

/-- Without a poll the fetch leaves memory and console alone. -/
theorem frame_fetched {m : Machine κ} (h : m.regs.pc ≠ kbsr) :
    m.fetched.mem = m.mem ∧ m.fetched.console = m.console := by
  rw [(word_of_pc_ne h).2]
  exact ⟨rfl, rfl⟩

/-- A poll leaves a word that decodes as a branch with an empty mask, or one
that is reserved. -/
theorem word_of_pc_eq_kbsr {m : Machine κ} (h : m.regs.pc = kbsr) :
    m.word = 0 ∨ m.word = 0x8000 := by
  rw [word, h, Core.read_kbsr]
  exact m.toCore.peek_poll_kbsr

/-- The word of a trap call was fetched without a poll. -/
theorem pc_ne_kbsr_of_trap {m : Machine κ} (h : m.word.opcode = 15) : m.regs.pc ≠ kbsr := by
  intro hpc
  rcases word_of_pc_eq_kbsr hpc with hw | hw <;> rw [hw] at h <;> exact absurd h (by decide)

/-! ## Several steps -/

/-- The machine after `n` steps, whatever they answer. -/
def steps (m : Machine κ) : (n : Nat) → Machine κ
  | 0 => m
  | n + 1 => m.step.2.steps n

/-- What `n` steps answer, in order. -/
def answers (m : Machine κ) : (n : Nat) → List Outcome
  | 0 => []
  | n + 1 => m.step.1 :: m.step.2.answers n

/-- The last of several steps. -/
theorem steps_succ (m : Machine κ) (n : Nat) : m.steps (n + 1) = (m.steps n).step.2 := by
  induction n generalizing m with
  | zero => rfl
  | succ n ih => exact ih m.step.2

theorem answers_succ (m : Machine κ) (n : Nat) :
    m.answers (n + 1) = m.answers n ++ [(m.steps n).step.1] := by
  induction n generalizing m with
  | zero => rfl
  | succ n ih => exact congrArg (m.step.1 :: ·) (ih m.step.2)

/-- **What every step keeps is kept by any number of them.** A statement about
runs asks for one fact about a single step, in whatever state that finds. -/
theorem keeps_steps {I : Machine κ → Prop} (hstep : ∀ {m}, I m → I m.step.2) {m : Machine κ}
    (h : I m) (n : Nat) : I (m.steps n) := by
  induction n with
  | zero => exact h
  | succ n ih =>
    rw [steps_succ]
    exact hstep ih

/-- While a step answers that the machine runs, a run is that step and the
rest of the run. -/
theorem runFrom_succ_of_running {m : Machine κ} (i k : Nat) (h : m.step.1 = .running) :
    m.runFrom i (k + 1) = m.step.2.runFrom (i + 1) k := by
  rw [runFrom]
  cases hs : m.step with
  | mk o m' =>
    rw [hs] at h
    obtain rfl : o = .running := h
    rfl

/-- Any other answer ends the run, with the steps that were completed before
as its count. -/
theorem runFrom_succ_of_ne {m : Machine κ} (i k : Nat) (h : m.step.1 ≠ .running) :
    m.runFrom i (k + 1) = ⟨m.step.2, m.step.1, i⟩ := by
  rw [runFrom]
  cases hs : m.step with
  | mk o m' =>
    rw [hs] at h
    cases o with
    | running => exact absurd rfl h
    | halted | fault | starved | endless => rfl

/-- A run that still goes on has not ended at its first step. -/
theorem running_of_runFrom {m : Machine κ} {i k : Nat}
    (h : (m.runFrom i (k + 1)).outcome = .running) : m.step.1 = .running := by
  refine Classical.byContradiction fun hne => ?_
  rw [runFrom_succ_of_ne i k hne] at h
  exact hne h

/-- A run that has not ended goes on where it was left. So a long run may be
cut into rounds at any place. -/
theorem runFrom_of_running {m : Machine κ} {i k : Nat} (n : Nat)
    (h : (m.runFrom i k).outcome = .running) :
    m.runFrom i (k + n) = (m.runFrom i k).machine.runFrom (i + k) n := by
  induction k generalizing m i with
  | zero => rw [Nat.zero_add]; rfl
  | succ k ih =>
    have hstep := running_of_runFrom h
    rw [runFrom_succ_of_running i k hstep] at h ⊢
    rw [Nat.add_right_comm, runFrom_succ_of_running i (k + n) hstep, ih h,
      Nat.add_assoc i 1 k, Nat.add_comm 1 k]

/-- A machine that is about to fetch `w` at address `a`, and is otherwise as
at the start. -/
def about (a w : Word) (console : κ) : Machine κ :=
  { Machine.initial console with
    regs := { Registers.initial with pc := a }
    mem := Memory.zeroed.write a w }

/-- Such a machine does fetch `w`, except at the status register, where it
would poll. -/
theorem word_about {a : Word} (h : a ≠ kbsr) (w : Word) (console : κ) :
    (about a w console).word = w := by
  rw [(word_of_pc_ne (m := about a w console) h).1]
  exact Memory.peek_write_self _ a w

end Machine

end LC3
