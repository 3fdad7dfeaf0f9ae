import LC3.Diagnostic
import LC3.Hex
import LC3.Word

/-!
# Faults

The two conditions that stop a program for good, with where they arose.
-/

namespace LC3

inductive Fault where
  /-- The word `instr` at `addr` has an opcode that no instruction uses. -/
  | reservedOpcode (opcode : UInt8) (instr addr : Word)
  /-- The instruction at `addr` calls a trap that has no routine. -/
  | unknownTrap (vector : UInt8) (addr : Word)
  deriving DecidableEq, Repr

namespace Fault

def message : Fault → String
  | .reservedOpcode opcode instr addr =>
    "Reserved opcode 0x" ++ hex 1 opcode.toNat ++ " in instruction 0x" ++ hex 4 instr.toNat ++
      " at address 0x" ++ hex 4 addr.toNat
  | .unknownTrap vector addr =>
    "Trap called with an unknown vector of 0x" ++ hex 2 vector.toNat ++ " at address 0x" ++
      hex 4 addr.toNat

def code : Fault → String
  | .reservedOpcode .. => "run::reserved_opcode"
  | .unknownTrap .. => "run::unknown_trap"

def help : Fault → String
  | .reservedOpcode .. =>
    "the image is malformed or uses an instruction this machine does not implement"
  | .unknownTrap .. => "pass `--unknown-trap ignore` to treat unknown traps as no-ops"

def diagnostic (f : Fault) : Diagnostic := { message := f.message, code := f.code, help := f.help }

end Fault

end LC3
