import LC3.Interface

/-!
# A machine with a panel

A machine has one status, and it cannot have halted and hit a fault at once.
A machine with a panel keeps the two apart: a light that is on once it has
halted, and the fault it has hit. Nothing about the panel forbids both. A
step looks at the fault first and at the light second, and only then does it
fetch.

`Panel.machine` is the machine that the panel stands for, which does the same
in every step (`machine_step`).
-/

namespace LC3

/-- A core, the two entries of its panel, and what it does at a trap without
a routine. -/
structure Panel (κ : Type) extends Core κ where
  halted : Bool := false
  fault : Option Fault := none
  ignoreUnknownTraps : Bool := false

namespace Panel

variable {κ : Type}

def initial (console : κ) : Panel κ :=
  { regs := .initial, mem := .zeroed, console := console }

def fail (p : Panel κ) (f : Fault) : Outcome × Panel κ := (.fault f, { p with fault := some f })

/-- The status that the two entries stand for: the fault counts before the
light. -/
def status (p : Panel κ) : Status :=
  match p.fault with
  | some f => .faulted f
  | none => if p.halted then .halted else .running

/-- What the panel stands for: the same core and setting, with one status for
the two entries. -/
def machine (p : Panel κ) : Machine κ where
  toCore := p.toCore
  status := p.status
  ignoreUnknownTraps := p.ignoreUnknownTraps

variable [Console κ]

def callTrap (p : Panel κ) (vector : UInt8) (addr : Word) : Outcome × Panel κ :=
  let p := { p with toCore := p.toCore.link }
  match Trap.ofVector? vector with
  | some t =>
    match t.run p.toCore with
    | (.resume, core) => (.running, { p with toCore := core })
    | (.halt, core) => (.halted, { p with toCore := core, halted := true })
    | (.starved, core) => (.starved, { p with toCore := core })
    | (.endless cycle, core) => (.endless cycle, { p with toCore := core })
  | none => if p.ignoreUnknownTraps then (.running, p) else p.fail (.unknownTrap vector addr)

def step (p : Panel κ) : Outcome × Panel κ :=
  match p.fault with
  | some f => (.fault f, p)
  | none =>
    if p.halted then (.halted, p)
    else
      let addr := p.regs.pc
      let (w, core) := p.toCore.fetch
      match w.decode with
      | .instr i => (.running, { p with toCore := core.exec i })
      | .trap vector => callTrap { p with toCore := core } vector addr
      | .reserved opcode => fail { p with toCore := core } (.reservedOpcode opcode w addr)

def handle : Handle (Panel κ) κ where
  step := step
  change f p := { p with toCore := f p.toCore }
  ignoreUnknownTraps setting p := { p with ignoreUnknownTraps := setting }

/-! ## The machine behind the panel -/

/-- A call has the same end at the panel and at its machine, entry by entry. -/
theorem machine_callTrap (core : Core κ) (ignore : Bool) (vector : UInt8) (addr : Word) :
    (machine ⟨core, false, none, ignore⟩).callTrap vector addr =
      ((callTrap ⟨core, false, none, ignore⟩ vector addr).1,
        (callTrap ⟨core, false, none, ignore⟩ vector addr).2.machine) := by
  simp only [Machine.callTrap, callTrap]
  cases Trap.ofVector? vector with
  | none => cases ignore <;> rfl
  | some t =>
    simp only [machine]
    cases t.run core.link with
    | mk e d => cases e <;> rfl

/-- **A step of the panel is a step of its machine.** So what is proved of
machines is proved of a program that keeps its end in two entries. -/
theorem machine_step (p : Panel κ) : p.machine.step = (p.step.1, p.step.2.machine) := by
  obtain ⟨core, halted, fault, ignore⟩ := p
  cases fault with
  | some f => rfl
  | none =>
    cases halted with
    | true => rfl
    | false =>
      simp only [Machine.step, step, machine, status, if_neg Bool.false_ne_true]
      cases core.fetch with
      | mk w d =>
        cases w.decode with
        | instr i => rfl
        | trap vector => exact machine_callTrap d ignore vector core.regs.pc
        | reserved opcode => rfl

end Panel

end LC3
