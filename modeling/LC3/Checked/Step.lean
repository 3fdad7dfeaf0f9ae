import LC3.Checked
import LC3.Console.Script
import LC3.Panel

/-!
# A step with every check written out

The step of a panel over a scripted console, down to the single test: the
shift and the mask that pick a field out of a word, each index into the
registers and into memory, the cases that have no meaning. Nothing is decoded
beforehand and nothing is taken to be in range; a string is printed by a loop
that looks at one word a turn and does not know whether it will find an end.

`Panel.step` is the same step with its tests left out.
-/

namespace LC3.Checked

/-! ## Registers -/

def getReg (r : Word) : Checked (Core Script) Word := do
  wordAt (← get).regs.general (r &&& 0b111).toNat

def setReg (r w : Word) : Checked (Core Script) Unit := do
  let general ← putAt (← get).regs.general (r &&& 0b111).toNat w
  modify fun c => { c with regs := { c.regs with general } }

/-- Takes the flag from the word in a register. -/
def updateFlags (r : Word) : Checked (Core Script) Unit := do
  let w ← getReg r
  modify fun c => { c with regs := { c.regs with cond := .of w } }

def setWithFlags (r w : Word) : Checked (Core Script) Unit := do
  setReg r w
  updateFlags r

def setPC (a : Word) : Checked (Core Script) Unit := modify (·.jump a)

/-! ## Memory and console -/

/-- The word at `a`, without a poll. -/
def peek (a : Word) : Checked (Core Script) Word := do wordAt (← get).mem.cells a.toNat

def write (a w : Word) : Checked (Core Script) Unit := do
  let cells ← putAt (← get).mem.cells a.toNat w
  modify fun c => { c with mem := ⟨cells⟩ }

/-- Takes the next byte of the script, which must have one. -/
def readByte : Checked (Core Script) UInt8 := do
  let console := (← get).console
  match console.input with
  | [] => throw .outOfInput
  | b :: input =>
    modify fun c => { c with console := { console with input } }
    return b

/-- Reads the word at `a`, after a poll if `a` is the keyboard status
register. -/
def read (a : Word) : Checked (Core Script) Word := do
  if a = kbsr then
    if (Console.keyReady (← get).console).1 then
      let b ← readByte
      write kbsr (← shiftLeft 1 15)
      write kbdr (.ofByte b)
    else
      write kbsr 0
  peek a

/-- Writes bytes, and does not hand them on. -/
def writeBytes (bytes : List UInt8) : Checked (Core Script) Unit :=
  modify fun c => { c with console := Console.writeAll bytes c.console }

def flush : Checked (Core Script) Unit :=
  modify fun c => { c with console := Console.flush c.console }

def print (bytes : List UInt8) : Checked (Core Script) Unit := do
  writeBytes bytes
  flush

/-! ## Instructions -/

def pcRelative (instr : Word) (bits : Nat) : Checked (Core Script) Word := do
  return (← get).regs.pc + (← signExtend instr bits)

def baseRelative (instr : Word) : Checked (Core Script) Word := do
  return (← getReg (← fieldAt instr 6)) + (← signExtend instr 6)

/-- The second operand: the register in the low bits, or a number if bit 5 is
set. -/
def operand (instr : Word) : Checked (Core Script) Word := do
  if instr &&& 0b100000 = 0 then getReg (instr &&& 0b111) else signExtend instr 5

/-- Carries out an instruction that always completes, by its opcode. -/
def exec (instr : Word) : Opcode → Checked (Core Script) Unit
  | .br => do
    let nzp ← fieldAt instr 9
    if (← get).regs.cond.bits.setWidth 16 &&& nzp ≠ 0 then setPC (← pcRelative instr 9)
  | .add => do
    let w := (← getReg (← fieldAt instr 6)) + (← operand instr)
    setWithFlags (← fieldAt instr 9) w
  | .and => do
    let w := (← getReg (← fieldAt instr 6)) &&& (← operand instr)
    setWithFlags (← fieldAt instr 9) w
  | .not => do
    let w := ~~~(← getReg (← fieldAt instr 6))
    setWithFlags (← fieldAt instr 9) w
  | .jmp => do setPC (← getReg (← fieldAt instr 6))
  | .jsr => do
    setReg 7 (← get).regs.pc
    if instr &&& 0x0800 = 0 then setPC (← getReg (← fieldAt instr 6))
    else setPC (← pcRelative instr 11)
  | .ld => do
    let w ← read (← pcRelative instr 9)
    setWithFlags (← fieldAt instr 9) w
  | .ldi => do
    let pointer ← read (← pcRelative instr 9)
    let w ← read pointer
    setWithFlags (← fieldAt instr 9) w
  | .ldr => do
    let w ← read (← baseRelative instr)
    setWithFlags (← fieldAt instr 9) w
  | .lea => do
    let w ← pcRelative instr 9
    setWithFlags (← fieldAt instr 9) w
  | .st => do
    let w ← getReg (← fieldAt instr 9)
    write (← pcRelative instr 9) w
  | .sti => do
    let w ← getReg (← fieldAt instr 9)
    let pointer ← read (← pcRelative instr 9)
    write pointer w
  | .str => do
    let w ← getReg (← fieldAt instr 9)
    write (← baseRelative instr) w
  -- a panel sees to these itself
  | .trap | .rti | .res => throw .unreachable

/-! ## Trap routines -/

/-- One turn of a routine that prints: the word at `a` is written unless it
is zero. -/
def printTurn (bytes : Word → List UInt8) (a : Word) : Checked (Core Script) (Option Word) := do
  let w ← peek a
  if w = 0 then return none
  writeBytes (bytes w)
  return some (a + 1)

/-- The loop of the two routines that print a string, which has no end if
memory has no zero word. -/
def printString (bytes : Word → List UInt8) : Checked (Core Script) Unit := do
  loop (printTurn bytes) (← getReg 0)
  flush

/-- Answers whether the machine is to halt. -/
def routine : Trap → Checked (Core Script) Bool
  | .getc => do
    setWithFlags 0 (.ofByte (← readByte))
    return false
  | .out => do
    print [(← getReg 0).lowByte]
    return false
  | .puts => do
    printString fun w => [w.lowByte]
    return false
  | .prompt => do
    print Trap.promptText
    let b ← readByte
    print [b]
    setWithFlags 0 (.ofByte b)
    return false
  | .putsp => do
    printString Trap.packedBytes
    return false
  | .halt => do
    print Trap.haltText
    return true

/-! ## The step -/

def onCore {α : Type} (x : Checked (Core Script) α) : Checked (Panel Script) α :=
  within Panel.toCore (fun p core => { p with toCore := core }) x

/-- Turns the light on if a routine asks for it. -/
def lightIf (halts : Bool) : Checked (Panel Script) Unit := do
  if halts then modify fun p => { p with halted := true }

def fail (f : Fault) : Checked (Panel Script) (Option Fault) := do
  modify fun p => { p with fault := some f }
  return some f

/-- Calls the trap routine that the instruction at `addr` names, and answers
the fault if there is no such routine. -/
def callTrap (instr addr : Word) : Checked (Panel Script) (Option Fault) := do
  onCore (setReg 7 (← get).regs.pc)
  let vector := (instr &&& 0xFF).lowByte
  match Trap.ofVector? vector with
  | some t =>
    lightIf (← onCore (routine t))
    return none
  | none =>
    if (← get).ignoreUnknownTraps then return none
    fail (.unknownTrap vector addr)

/-- Carries out the instruction from `addr`, and answers the fault it comes
to. -/
def perform (instr addr : Word) : Checked (Panel Script) (Option Fault) := do
  match ← opcode instr with
  | .trap => callTrap instr addr
  | .rti | .res => fail (.reservedOpcode (← shiftRight instr 12).lowByte instr addr)
  | op =>
    onCore (exec instr op)
    return none

/-- The answer of a step by the fault it has come to, or else by the light
that is on. -/
def answer : Option Fault → Checked (Panel Script) Outcome
  | some f => return .fault f
  | none => return if (← get).halted then .halted else .running

/-- A step with every test written out. The fault is looked at before the
light, and both before the fetch. -/
def step : Checked (Panel Script) Outcome := do
  let p ← get
  match p.fault with
  | some f => return .fault f
  | none =>
    if p.halted then return .halted
    let addr := p.regs.pc
    let instr ← onCore (read addr)
    onCore (setPC (addr + 1))
    answer (← perform instr addr)

end LC3.Checked
