import LC3.Word

/-!
# The register file

Eight general registers, the program counter and the condition flag. The flag
describes a word, not a register: it stays as it is when the register that
set it is overwritten by a plain `set`.
-/

namespace LC3

/-- One of the eight general registers. -/
abbrev Reg := Fin 8

/-- There are registers, so their numbers may be written as numerals. -/
instance Reg.neZero : @NeZero Nat Zero.ofOfNat0 8 := ⟨nofun⟩

/-- A three-bit instruction field names a register. -/
def Reg.ofField (field : BitVec 3) : Reg := field.toFin

/-- Only the low three bits of a number select a register. -/
def Reg.ofWord (w : Word) : Reg := .ofField (w.extractLsb' 0 3)

/-- Sign of the last result: negative, zero or positive. -/
inductive Flag where
  | n
  | z
  | p
  deriving DecidableEq, Repr

namespace Flag

/-- The sign of a word in two's complement. -/
def of (w : Word) : Flag :=
  if w.msb then .n else if w = 0 then .z else .p

/-- The flag as it stands in the `nzp` mask of a branch. -/
def bits : Flag → BitVec 3
  | .n => 0b100
  | .z => 0b010
  | .p => 0b001

/-- The program tests bit 15. That is the sign of the number in two's
complement. -/
theorem of_eq_n_iff {w : Word} : of w = .n ↔ w.toInt < 0 := by
  rw [BitVec.toInt_neg_iff, of, BitVec.msb_eq_decide]
  split
  · simp_all
    omega
  · split
    · simp_all
    · simp_all
      omega

theorem of_eq_z_iff {w : Word} : of w = .z ↔ w.toInt = 0 := by
  have : w.toInt = 0 ↔ w = 0 := by rw [← BitVec.toInt_inj]; rfl
  rw [this, of]
  split
  · simp; rintro rfl; simp_all
  · split <;> simp_all

theorem of_eq_p_iff {w : Word} : of w = .p ↔ 0 < w.toInt := by
  have hn := @of_eq_n_iff w
  have hz := @of_eq_z_iff w
  cases h : of w <;> simp_all <;> omega

end Flag

/-- General registers, program counter and condition flag. -/
structure Registers where
  general : Vector Word 8
  pc : Word
  cond : Flag
  deriving DecidableEq, Repr

namespace Registers

/-- Address of the first instruction of a program. -/
def start : Word := 0x3000

/-- The registers before the first instruction. -/
def initial : Registers := ⟨.replicate 8 0, start, .z⟩

/-- The word in register `r`. -/
def get (regs : Registers) (r : Reg) : Word := regs.general[r]

/-- Puts `w` into register `r`; the flag stays. -/
def set (regs : Registers) (r : Reg) (w : Word) : Registers :=
  { regs with general := regs.general.set r w }

/-- Takes the flag from the word in register `r`. -/
def updateCond (regs : Registers) (r : Reg) : Registers :=
  { regs with cond := .of (regs.get r) }

/-- Puts the result `w` into register `r` and takes the flag from it. -/
def setResult (regs : Registers) (r : Reg) (w : Word) : Registers :=
  (regs.set r w).updateCond r

/-! ## What each operation leaves -/

@[simp] theorem pc_initial : initial.pc = start := rfl

@[simp] theorem cond_initial : initial.cond = .z := rfl

theorem get_set (regs : Registers) (r s : Reg) (w : Word) :
    (regs.set r w).get s = if s = r then w else regs.get s := by
  simp only [get, set, Fin.getElem_fin, Vector.getElem_set, Fin.ext_iff, eq_comm]

@[simp] theorem get_set_self (regs : Registers) (r : Reg) (w : Word) :
    (regs.set r w).get r = w := by simp [get_set]

@[simp] theorem pc_set (regs : Registers) (r : Reg) (w : Word) : (regs.set r w).pc = regs.pc := rfl

@[simp] theorem cond_set (regs : Registers) (r : Reg) (w : Word) :
    (regs.set r w).cond = regs.cond := rfl

@[simp] theorem get_updateCond (regs : Registers) (r s : Reg) :
    (regs.updateCond r).get s = regs.get s := rfl

@[simp] theorem pc_updateCond (regs : Registers) (r : Reg) :
    (regs.updateCond r).pc = regs.pc := rfl

@[simp] theorem cond_updateCond (regs : Registers) (r : Reg) :
    (regs.updateCond r).cond = .of (regs.get r) := rfl

@[simp] theorem get_setPC (regs : Registers) (a : Word) (r : Reg) :
    { regs with pc := a }.get r = regs.get r := rfl

/-- A result is put into its register, and the flag is set by what is there
then. -/
theorem get_setResult (regs : Registers) (r s : Reg) (w : Word) :
    (regs.setResult r w).get s = if s = r then w else regs.get s := by
  simp [setResult, get_set]

@[simp] theorem pc_setResult (regs : Registers) (r : Reg) (w : Word) :
    (regs.setResult r w).pc = regs.pc := rfl

@[simp] theorem cond_setResult (regs : Registers) (r : Reg) (w : Word) :
    (regs.setResult r w).cond = .of w := by simp [setResult]

/-- Two register files that agree on every register, the counter and the flag
are one. -/
theorem ext_get {a b : Registers} (hget : ∀ r, a.get r = b.get r) (hpc : a.pc = b.pc)
    (hcond : a.cond = b.cond) : a = b := by
  obtain ⟨ga, pa, ca⟩ := a
  obtain ⟨gb, pb, cb⟩ := b
  have : ga = gb := by
    refine Vector.ext fun i hi => ?_
    exact hget ⟨i, hi⟩
  simp_all

end Registers

end LC3
