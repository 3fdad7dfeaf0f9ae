import LC3.Fault
import LC3.Image
import LC3.Trap

/-!
# The machine

A core that runs until it halts or faults, and then stays as it is: a machine
whose status is not `running` answers every step with what ended it and is
left unchanged (`step_of_halted`, `step_of_faulted`). A step that needs input
the console does not have leaves the machine running behind the trap
instruction, with the link kept and any prompt written.
-/

namespace LC3

/-- Whether a machine may go on, and why not. -/
inductive Status where
  | running
  | halted
  | faulted (f : Fault)
  deriving DecidableEq, Repr

/-- What a step answers. -/
inductive Outcome where
  /-- The instruction is done and the machine can go on. -/
  | running
  | halted
  | fault (f : Fault)
  /-- The instruction waits for input that the console does not have. -/
  | starved
  /-- The instruction writes these bytes over and over. -/
  | endless (cycle : List UInt8)
  deriving DecidableEq, Repr

/-- A core, its status, and what it does at a trap without a routine. -/
structure Machine (κ : Type) extends Core κ where
  status : Status := .running
  /-- Unknown traps do nothing instead of stopping the machine. -/
  ignoreUnknownTraps : Bool := false

namespace Machine

variable {κ : Type}

/-- A machine before its first instruction, with every word of memory zero. -/
def initial (console : κ) : Machine κ :=
  { regs := .initial, mem := .zeroed, console := console }

def fail (m : Machine κ) (f : Fault) : Outcome × Machine κ :=
  (.fault f, { m with status := .faulted f })

/-- Places an image, if there is one, and answers its origin. Nothing but
memory changes: a loaded machine goes on where it was. -/
def load (m : Machine κ) (image : Except LoadError Image) : Except LoadError Word × Machine κ :=
  match m.toCore.load image with
  | (answer, core) => (answer, { m with toCore := core })

variable [Console κ]

/-- Calls the trap routine with the given number from the instruction at
`addr`. -/
def callTrap (m : Machine κ) (vector : UInt8) (addr : Word) : Outcome × Machine κ :=
  let m := { m with toCore := m.toCore.link }
  match Trap.ofVector? vector with
  | some t =>
    match t.run m.toCore with
    | (.resume, core) => (.running, { m with toCore := core })
    | (.halt, core) => (.halted, { m with toCore := core, status := .halted })
    | (.starved, core) => (.starved, { m with toCore := core })
    | (.endless cycle, core) => (.endless cycle, { m with toCore := core })
  | none => if m.ignoreUnknownTraps then (.running, m) else m.fail (.unknownTrap vector addr)

/-- Fetches, decodes and carries out one instruction, if the machine is
running. -/
def step (m : Machine κ) : Outcome × Machine κ :=
  match m.status with
  | .faulted f => (.fault f, m)
  | .halted => (.halted, m)
  | .running =>
    let addr := m.regs.pc
    let (w, core) := m.toCore.fetch
    match w.decode with
    | .instr i => (.running, { m with toCore := core.exec i })
    | .trap vector => callTrap { m with toCore := core } vector addr
    | .reserved opcode => fail { m with toCore := core } (.reservedOpcode opcode w addr)

/-- What came of running a machine: the machine, its last answer, and how
many steps answered that it can go on. -/
structure Run (κ : Type) where
  machine : Machine κ
  outcome : Outcome
  completed : Nat

/-- Steps on until a step does not answer `running`, at most `limit` times. -/
def runFrom (m : Machine κ) (completed : Nat) : (limit : Nat) → Run κ
  | 0 => ⟨m, .running, completed⟩
  | limit + 1 =>
    match m.step with
    | (.running, m) => m.runFrom (completed + 1) limit
    | (outcome, m) => ⟨m, outcome, completed⟩

/-- Runs a machine for at most `limit` steps that answer `running`. -/
def run (m : Machine κ) (limit : Nat) : Run κ := m.runFrom 0 limit

/-! ## The end is final -/

/-- A machine that has stopped answers its end and does nothing. -/
theorem step_of_halted {m : Machine κ} (h : m.status = .halted) : m.step = (.halted, m) := by
  simp [step, h]

theorem step_of_faulted {m : Machine κ} {f : Fault} (h : m.status = .faulted f) :
    m.step = (.fault f, m) := by
  simp [step, h]

/-- Of two limits that both end the run, neither matters: a run that has
ended is not taken up again. -/
theorem runFrom_add {m : Machine κ} {completed k : Nat} (n : Nat)
    (h : (m.runFrom completed k).outcome ≠ .running) :
    m.runFrom completed (k + n) = m.runFrom completed k := by
  induction k generalizing m completed with
  | zero => exact absurd rfl h
  | succ k ih =>
    rw [Nat.add_right_comm]
    unfold runFrom at h ⊢
    cases hs : m.step with
    | mk o m' =>
      rw [hs] at h
      cases o with
      | running => exact ih h
      | _ => rfl

end Machine

end LC3
