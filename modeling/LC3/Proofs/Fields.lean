import Mathlib.Algebra.Group.Int.Defs
import Mathlib.Algebra.Group.Nat.Defs
import LC3.Instr

/-!
# The fields of a word as numbers

Decoding picks fields out of a word by bit position and widens them by
copying the sign bit. This file says the same in arithmetic: a field is a
quotient and a remainder of the word's number, and an offset is the integer
that its bits stand for in two's complement. The payoff:

> `toInt_signExtend`: widening keeps the number, for every width that leaves
> room for a sign;
> `signExtend_signExtend`: what has been widened stays as it is when it is
> widened again;
> `add_signExtend`: adding a widened offset to a word is adding integers and
> going round at 65536.

The rest ties each piece of `Word.decode` (opcode, registers, second operand,
branch mask) to its number, so that a statement about an instruction never
has to look at bits.
-/

namespace LC3.Word

/-- Bits 15 to 12 as a number. -/
def opcode (w : Word) : Nat := w.toNat / 4096

/-- Whether bit `i` is set. -/
def HasBit (w : Word) (i : Nat) : Prop := w.toNat / 2 ^ i % 2 = 1

instance (w : Word) (i : Nat) : Decidable (w.HasBit i) :=
  inferInstanceAs (Decidable (_ = _))

/-- The register that the three bits from bit `low` up name. -/
def regAt (w : Word) (low : Nat) : Reg := .ofNat 8 (w.toNat / 2 ^ low)

/-- The low `n` bits, read as an `n`-bit number in two's complement. -/
def signed (n : Nat) (w : Word) : Int :=
  if w.toNat % 2 ^ n < 2 ^ (n - 1) then (w.toNat % 2 ^ n : Nat) else (w.toNat % 2 ^ n : Nat) - 2 ^ n

/-- The word that an integer leaves modulo 65536. -/
def wrap (i : Int) : Word := .ofInt 16 i

/-- The address `j` places past `a`, counted on through 65535 to 0. -/
def place (a : Word) (j : Nat) : Word := wrap (a.toNat + j)

/-! ## Offsets -/

/-- A residue below the modulus is centred by one subtraction. -/
private theorem bmod_two_pow {n : Nat} (h : 0 < n) (k : Nat) :
    (k : Int).bmod (2 ^ n) =
      if k % 2 ^ n < 2 ^ (n - 1) then ((k % 2 ^ n : Nat) : Int) else (k % 2 ^ n : Nat) - 2 ^ n := by
  have hhalf : 2 ^ n = 2 * 2 ^ (n - 1) := by
    rw [← Nat.pow_succ', Nat.succ_eq_add_one, Nat.sub_add_cancel h]
  rw [Int.bmod_def]
  have hcast : (k : Int) % (2 ^ n : Nat) = (k % 2 ^ n : Nat) := by simp
  rw [hcast]
  -- the two halves of the residues: those below the middle stay, the others go down
  -- by the modulus
  by_cases hlt : k % 2 ^ n < 2 ^ (n - 1)
  · rw [if_pos hlt, if_pos (by omega)]
  · rw [if_neg hlt, if_neg (by omega)]
    simp

/-- **Widening keeps the number**, whatever the bits above the field are. It
is stated for every width from 1 to 15, since the fields of an instruction
have 5, 6, 9 and 11 bits. -/
theorem toInt_signExtend {n : Nat} (h0 : 0 < n) (hn : n < 16) (w : Word) :
    (signExtend n w).toInt = w.signed n := by
  rw [signExtend, BitVec.toInt_signExtend_of_le (Nat.le_of_lt hn), BitVec.toInt_setWidth,
    bmod_two_pow h0, signed]

/-- Two's complement is the residue that lies closest to 0. -/
theorem signed_eq_bmod {n : Nat} (h0 : 0 < n) (w : Word) :
    w.signed n = (w.toNat : Int).bmod (2 ^ n) := (bmod_two_pow h0 _).symm

/-- Only the low `n` bits count. -/
theorem signed_congr {n : Nat} {v w : Word} (h : v.toNat % 2 ^ n = w.toNat % 2 ^ n) :
    v.signed n = w.signed n := by
  rw [signed, signed, h]

/-- The number and the field it was read from leave the same remainder. -/
theorem signed_emod (n : Nat) (w : Word) : w.signed n % 2 ^ n = w.toNat % 2 ^ n := by
  unfold signed
  split <;> simp

/-- The modulus in halves, as the integers have it. -/
private theorem cast_two_pow {n : Nat} (h0 : 0 < n) : ((2 ^ n : Nat) : Int) = 2 * 2 ^ (n - 1) := by
  rw [Int.natCast_pow, ← Int.pow_succ', Nat.sub_add_cancel h0]
  rfl

theorem le_signed {n : Nat} (h0 : 0 < n) (w : Word) : -2 ^ (n - 1) ≤ w.signed n := by
  have hle := Int.le_bmod (x := w.toNat) (Nat.two_pow_pos n)
  rw [cast_two_pow h0] at hle
  rw [signed_eq_bmod h0]
  omega

theorem signed_lt {n : Nat} (h0 : 0 < n) (w : Word) : w.signed n < 2 ^ (n - 1) := by
  have hlt := Int.bmod_lt (x := w.toNat) (Nat.two_pow_pos n)
  rw [cast_two_pow h0] at hlt
  rw [signed_eq_bmod h0]
  omega

/-- A word that stands for a number of `n` bits stands for it by its low `n`
bits alone. -/
theorem signed_eq_toInt {n : Nat} (h0 : 0 < n) (hn : n ≤ 16) {w : Word}
    (hle : -2 ^ (n - 1) ≤ w.toInt) (hlt : w.toInt < 2 ^ (n - 1)) : w.signed n = w.toInt := by
  have hdvd : 2 ^ n ∣ 2 ^ 16 := Nat.pow_dvd_pow 2 hn
  rw [signed_eq_bmod h0, ← Int.bmod_bmod_of_dvd hdvd, ← BitVec.toInt_eq_toNat_bmod]
  apply Int.bmod_eq_of_le
  · rw [cast_two_pow h0]
    omega
  · rw [cast_two_pow h0]
    omega

/-- A word that has been widened is not changed by widening it from as wide a
field or a wider. -/
theorem signExtend_signExtend {n c : Nat} (h0 : 0 < n) (hnc : n ≤ c) (hc : c < 16) (w : Word) :
    signExtend c (signExtend n w) = signExtend n w := by
  have hc0 : 0 < c := Nat.lt_of_lt_of_le h0 hnc
  have hle := le_signed h0 w
  have hlt := signed_lt h0 w
  have hpow : (2 : Int) ^ (n - 1) ≤ 2 ^ (c - 1) := by
    exact_mod_cast Nat.pow_le_pow_right (by decide) (Nat.sub_le_sub_right hnc 1)
  rw [← toInt_signExtend h0 (Nat.lt_of_le_of_lt hnc hc)] at hle hlt
  apply BitVec.eq_of_toInt_eq
  rw [toInt_signExtend hc0 hc]
  exact signed_eq_toInt hc0 (Nat.le_of_lt hc) (by omega) (by omega)

/-- A widened field is the word of its number. -/
theorem signExtend_eq_wrap {n : Nat} (h0 : 0 < n) (hn : n < 16) (w : Word) :
    signExtend n w = wrap (w.signed n) := by
  rw [wrap, ← toInt_signExtend h0 hn, BitVec.ofInt_toInt]

theorem wrap_toNat (w : Word) : wrap w.toNat = w := by
  rw [wrap, BitVec.ofInt_natCast, BitVec.ofNat_toNat, BitVec.setWidth_eq]

/-- Sums of integers go over into sums of words, so it does not matter when
the sum goes round. -/
theorem wrap_add (i j : Int) : wrap (i + j) = wrap i + wrap j := BitVec.ofInt_add i j

/-- An offset is added over the integers; the sum goes round at 65536. -/
theorem add_signExtend {n : Nat} (h0 : 0 < n) (hn : n < 16) (a w : Word) :
    a + signExtend n w = wrap (a.toNat + w.signed n) := by
  rw [wrap_add, wrap_toNat, signExtend_eq_wrap h0 hn]

theorem place_eq_add (a : Word) (j : Nat) : place a j = a + BitVec.ofNat 16 j := by
  rw [place, wrap_add, wrap_toNat, wrap, BitVec.ofInt_natCast]

/-- The complement of a word is its distance from 65535. -/
theorem not_eq_wrap (a : Word) : ~~~a = wrap (65535 - a.toNat) := by
  have ha := a.isLt
  apply BitVec.eq_of_toNat_eq
  rw [BitVec.toNat_not, wrap, BitVec.toNat_ofInt]
  omega

theorem toNat_ofByte (b : UInt8) : (ofByte b).toNat = b.toNat := by
  have := b.toNat_lt
  rw [ofByte, BitVec.toNat_setWidth]
  exact Nat.mod_eq_of_lt (by omega)

/-! ## Fields -/

/-- The opcode that decoding finds has the number in the top four bits, so a
case split on opcodes is one on numbers. -/
theorem toNat_toField_of (w : Word) : (Opcode.of w).toField.toNat = w.opcode := by
  have := w.isLt
  rw [Opcode.of, Opcode.toField_ofField, BitVec.extractLsb'_toNat, Nat.shiftRight_eq_div_pow,
    opcode]
  omega

theorem ofField_eq_regAt (w : Word) (low : Nat) :
    Reg.ofField (w.extractLsb' low 3) = w.regAt low := by
  apply Fin.ext
  show (w.extractLsb' low 3).toNat = _
  rw [BitVec.extractLsb'_toNat, Nat.shiftRight_eq_div_pow]
  rfl

theorem dst_eq_regAt (w : Word) : w.dst = w.regAt 9 := ofField_eq_regAt w 9

theorem base_eq_regAt (w : Word) : w.base = w.regAt 6 := ofField_eq_regAt w 6

theorem getLsbD_iff_hasBit {w : Word} {i : Nat} : w.getLsbD i = true ↔ w.HasBit i := by
  rw [← BitVec.testBit_toNat, Nat.testBit_eq_decide_div_mod_eq, decide_eq_true_iff, HasBit]

/-- The second operand is chosen by bit 5. -/
theorem value_operand (w : Word) (regs : Registers) :
    w.operand.value regs = if w.HasBit 5 then wrap (w.signed 5) else regs.get (w.regAt 0) := by
  unfold operand
  by_cases h : w.HasBit 5
  · rw [if_pos (getLsbD_iff_hasBit.2 h), if_pos h]
    exact signExtend_eq_wrap (by decide) (by decide) w
  · rw [if_neg (fun hb => h (getLsbD_iff_hasBit.1 hb)), if_neg h]
    exact congrArg regs.get (ofField_eq_regAt w 0)

end LC3.Word

namespace LC3.Flag

/-- The bit of a branch that asks for this flag: 11 for negative, 10 for
zero, 9 for positive. -/
def branchBit : Flag → Nat
  | .n => 11
  | .z => 10
  | .p => 9

/-- The mask of a branch has the flag if the word has the flag's bit. -/
theorem bits_and_mask_eq_zero_iff (f : Flag) (w : Word) :
    f.bits &&& w.extractLsb' 9 3 = 0 ↔ ¬ w.HasBit f.branchBit := by
  have hmask : ∀ m : BitVec 3, (f.bits &&& m = 0 ↔ ¬ m.getLsbD (f.branchBit - 9) = true) := by
    cases f <;> decide
  have hbit : (w.extractLsb' 9 3).getLsbD (f.branchBit - 9) = w.getLsbD f.branchBit := by
    rw [BitVec.getLsbD_extractLsb']
    cases f <;> rfl
  rw [hmask, hbit, Word.getLsbD_iff_hasBit]

/-- The sign of an integer. -/
def ofSign (i : Int) : Flag := if i < 0 then .n else if i = 0 then .z else .p

/-- The flag of a word is the sign of the number it stands for. -/
theorem of_eq_ofSign (w : Word) : of w = ofSign w.toInt := by
  unfold ofSign
  split
  next h => exact of_eq_n_iff.2 h
  next h =>
    split
    next h0 => exact of_eq_z_iff.2 h0
    next h0 => exact of_eq_p_iff.2 (by omega)

end LC3.Flag
