import LC3.Console
import LC3.Instr
import LC3.Memory

/-!
# The core: registers, memory and console together

Reading the keyboard status register asks the console for a key; every other
access is to a plain word. This is the only place where reading memory has an
effect, and it touches the console and the two keyboard registers alone
(`peek_poll`). `exec` carries out an instruction that completes.
-/

namespace LC3

/-- What instructions and trap routines work on. The console is any that can
be asked for a key, so nothing here depends on where input comes from. -/
structure Core (κ : Type) where
  regs : Registers
  mem : Memory
  console : κ

namespace Core

variable {κ : Type} [Console κ]

/-- Latches a waiting key: its byte into the data register and bit 15 into
the status register. Without a key the status register is cleared and the
data register stays. -/
def poll (c : Core κ) : Core κ :=
  match Console.keyReady c.console with
  | (false, console) => { c with console, mem := c.mem.write kbsr 0 }
  | (true, console) =>
    match Console.readByte? console with
    | some (b, console) =>
      { c with console, mem := (c.mem.write kbsr 0x8000).write kbdr (.ofByte b) }
    | none => { c with console, mem := c.mem.write kbsr 0 }

/-- Reads the word at `a`, after a poll if `a` is the keyboard status
register. -/
def read (c : Core κ) (a : Word) : Word × Core κ :=
  let c := if a = kbsr then c.poll else c
  (c.mem.peek a, c)

/-- Reads the word at the program counter and moves the counter past it. -/
def fetch (c : Core κ) : Word × Core κ :=
  let a := c.regs.pc
  let (w, c) := c.read a
  (w, { c with regs := { c.regs with pc := a + 1 } })

/-- Puts a result into a register and takes the flag from it. -/
def setResult (c : Core κ) (r : Reg) (w : Word) : Core κ :=
  { c with regs := c.regs.setResult r w }

def jump (c : Core κ) (a : Word) : Core κ := { c with regs := { c.regs with pc := a } }

/-- Keeps the address of the next instruction in register 7. -/
def link (c : Core κ) : Core κ := { c with regs := c.regs.set 7 c.regs.pc }

def store (c : Core κ) (a w : Word) : Core κ := { c with mem := c.mem.write a w }

/-- Carries out an instruction whose fetch has moved the program counter
already. A call keeps its return address before it looks at the base
register, and an indirect store picks up its word before it looks at the
pointer. -/
def exec (c : Core κ) : Instr → Core κ
  | .br nzp offset =>
    if c.regs.cond.bits &&& nzp = 0 then c else c.jump (c.regs.pc + offset)
  | .add dst src rhs => c.setResult dst (c.regs.get src + rhs.value c.regs)
  | .and dst src rhs => c.setResult dst (c.regs.get src &&& rhs.value c.regs)
  | .not dst src => c.setResult dst (~~~c.regs.get src)
  | .ld dst offset =>
    let (w, c) := c.read (c.regs.pc + offset)
    c.setResult dst w
  | .ldi dst offset =>
    let (pointer, c) := c.read (c.regs.pc + offset)
    let (w, c) := c.read pointer
    c.setResult dst w
  | .ldr dst base offset =>
    let (w, c) := c.read (c.regs.get base + offset)
    c.setResult dst w
  | .lea dst offset => c.setResult dst (c.regs.pc + offset)
  | .st src offset => c.store (c.regs.pc + offset) (c.regs.get src)
  | .sti src offset =>
    let w := c.regs.get src
    let (pointer, c) := c.read (c.regs.pc + offset)
    c.store pointer w
  | .str src base offset => c.store (c.regs.get base + offset) (c.regs.get src)
  | .jmp base => c.jump (c.regs.get base)
  | .jsr offset => c.link.jump (c.regs.pc + offset)
  | .jsrr base => c.link.jump (c.link.regs.get base)

/-! ## What a read leaves -/

/-- A poll changes memory and console. -/
@[simp] theorem regs_poll (c : Core κ) : c.poll.regs = c.regs := by
  unfold poll
  split
  · rfl
  · split <;> rfl

/-- A poll changes no word but the two keyboard registers. In particular a
program that polls is not changed by it. -/
theorem peek_poll (c : Core κ) {a : Word} (hs : a ≠ kbsr) (hd : a ≠ kbdr) :
    c.poll.mem.peek a = c.mem.peek a := by
  unfold poll
  split
  · simp [Memory.peek_write, hs]
  · split <;> simp [Memory.peek_write, hs, hd]

/-- Away from the status register a read has no effect, that of the data
register included. -/
theorem read_of_ne (c : Core κ) {a : Word} (h : a ≠ kbsr) : c.read a = (c.mem.peek a, c) := by
  simp [read, h]

/-- At the status register it polls first and answers what the poll has left
there. -/
@[simp] theorem read_kbsr (c : Core κ) : c.read kbsr = (c.poll.mem.peek kbsr, c.poll) := by
  simp [read]

@[simp] theorem regs_read (c : Core κ) (a : Word) : (c.read a).2.regs = c.regs := by
  unfold read
  split <;> simp

/-- A poll leaves no word in the status register but its two readings. What
is fetched from there is therefore a branch that is never taken, or no
instruction. -/
theorem peek_poll_kbsr (c : Core κ) :
    c.poll.mem.peek kbsr = 0 ∨ c.poll.mem.peek kbsr = 0x8000 := by
  unfold poll
  split
  · simp
  · split
    · exact .inr (by simp [Memory.peek_write, kbsr, kbdr])
    · simp

end Core

end LC3
