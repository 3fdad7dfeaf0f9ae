import LC3.Registers

/-!
# Instructions

The instruction set as data, and how a word is read as an instruction.
`Opcode` is what the top four bits say; `Instr` is an instruction that always
completes, with its fields picked out and its offsets already widened to
words; `Decoded` adds the two kinds of word that may end a program.
-/

namespace LC3

/-- What bits 15 to 12 of an instruction select. -/
inductive Opcode where
  | br | add | ld | st | jsr | and | ldr | str | rti | not | ldi | sti | jmp | res | lea | trap
  deriving DecidableEq, Repr

namespace Opcode

/-- The opcode with a given number. -/
def ofField (field : BitVec 4) : Opcode :=
  match field.toNat with
  | 0x0 => .br
  | 0x1 => .add
  | 0x2 => .ld
  | 0x3 => .st
  | 0x4 => .jsr
  | 0x5 => .and
  | 0x6 => .ldr
  | 0x7 => .str
  | 0x8 => .rti
  | 0x9 => .not
  | 0xA => .ldi
  | 0xB => .sti
  | 0xC => .jmp
  | 0xD => .res
  | 0xE => .lea
  | _ => .trap

def toField : Opcode → BitVec 4
  | .br => 0x0
  | .add => 0x1
  | .ld => 0x2
  | .st => 0x3
  | .jsr => 0x4
  | .and => 0x5
  | .ldr => 0x6
  | .str => 0x7
  | .rti => 0x8
  | .not => 0x9
  | .ldi => 0xA
  | .sti => 0xB
  | .jmp => 0xC
  | .res => 0xD
  | .lea => 0xE
  | .trap => 0xF

def of (w : Word) : Opcode := ofField (w.extractLsb' 12 4)

/-- The sixteen opcodes and the sixteen numbers of four bits are the same
thing. -/
@[simp] theorem ofField_toField (op : Opcode) : ofField op.toField = op := by cases op <;> rfl

@[simp] theorem toField_ofField (field : BitVec 4) : (ofField field).toField = field := by
  revert field
  decide

end Opcode

/-- The second operand of ADD and AND. -/
inductive Operand where
  | reg (r : Reg)
  | imm (value : Word)
  deriving DecidableEq, Repr

/-- The word an operand stands for. -/
def Operand.value (regs : Registers) : Operand → Word
  | .reg r => regs.get r
  | .imm value => value

/-- An instruction that always completes. An `offset` is added to the address
of the next instruction, or to the base register where there is one. -/
inductive Instr where
  /-- Jump if the flag is in the mask. -/
  | br (nzp : BitVec 3) (offset : Word)
  | add (dst src : Reg) (rhs : Operand)
  | and (dst src : Reg) (rhs : Operand)
  | not (dst src : Reg)
  | ld (dst : Reg) (offset : Word)
  /-- Load from where the word at the offset points. -/
  | ldi (dst : Reg) (offset : Word)
  /-- Load relative to a register. -/
  | ldr (dst base : Reg) (offset : Word)
  | lea (dst : Reg) (offset : Word)
  | st (src : Reg) (offset : Word)
  /-- Store to where the word at the offset points. -/
  | sti (src : Reg) (offset : Word)
  /-- Store relative to a register. -/
  | str (src base : Reg) (offset : Word)
  /-- Jump to the address in a register. -/
  | jmp (base : Reg)
  | jsr (offset : Word)
  /-- Call the address in a register. -/
  | jsrr (base : Reg)
  deriving DecidableEq, Repr

/-- What a word is when it is fetched as an instruction. -/
inductive Decoded where
  | instr (i : Instr)
  /-- A call of the trap routine with this number. -/
  | trap (vector : UInt8)
  | reserved (opcode : UInt8)
  deriving DecidableEq, Repr

namespace Word

/-- Bits 11 to 9: the register that is loaded or stored. -/
def dst (w : Word) : Reg := .ofField (w.extractLsb' 9 3)

/-- Bits 8 to 6: the first operand or the base register. -/
def base (w : Word) : Reg := .ofField (w.extractLsb' 6 3)

/-- The second operand: bits 4 to 0 as a number if bit 5 is set, otherwise
the register in bits 2 to 0. -/
def operand (w : Word) : Operand :=
  if w.getLsbD 5 then .imm (signExtend 5 w) else .reg (.ofWord w)

/-- Reads a word as an instruction. Bits that an instruction has no use for
may be anything. -/
def decode (w : Word) : Decoded :=
  match Opcode.of w with
  | .br => .instr (.br (w.extractLsb' 9 3) (signExtend 9 w))
  | .add => .instr (.add (dst w) (base w) (operand w))
  | .ld => .instr (.ld (dst w) (signExtend 9 w))
  | .st => .instr (.st (dst w) (signExtend 9 w))
  | .jsr => .instr (if w.getLsbD 11 then .jsr (signExtend 11 w) else .jsrr (base w))
  | .and => .instr (.and (dst w) (base w) (operand w))
  | .ldr => .instr (.ldr (dst w) (base w) (signExtend 6 w))
  | .str => .instr (.str (dst w) (base w) (signExtend 6 w))
  | .not => .instr (.not (dst w) (base w))
  | .ldi => .instr (.ldi (dst w) (signExtend 9 w))
  | .sti => .instr (.sti (dst w) (signExtend 9 w))
  | .jmp => .instr (.jmp (base w))
  | .lea => .instr (.lea (dst w) (signExtend 9 w))
  | .trap => .trap (lowByte w)
  | .rti => .reserved 0x8
  | .res => .reserved 0xD

end Word

end LC3
