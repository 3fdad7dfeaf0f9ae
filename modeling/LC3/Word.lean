/-!
# Words and bytes

The machine computes with 16-bit words, its devices with bytes. This file
holds the passage between the two and the sign extension of an instruction
field. Arithmetic on words is that of `BitVec 16`: it wraps at both ends of
the address space, with no case of its own for either.
-/

namespace LC3

/-- A machine word; it is also an address. -/
abbrev Word := BitVec 16

namespace Word

/-- The word that holds a byte, with a high half of zero. -/
def ofByte (b : UInt8) : Word := b.toBitVec.setWidth 16

/-- The word whose high half is `hi` and whose low half is `lo`. -/
def ofBytes (hi lo : UInt8) : Word := hi.toBitVec ++ lo.toBitVec

/-- Bits 7 to 0 of a word. -/
def lowByte (w : Word) : UInt8 := ⟨w.extractLsb' 0 8⟩

/-- Bits 15 to 8 of a word. -/
def highByte (w : Word) : UInt8 := ⟨w.extractLsb' 8 8⟩

@[simp] theorem lowByte_ofBytes (hi lo : UInt8) : lowByte (ofBytes hi lo) = lo :=
  UInt8.toBitVec_inj.1 BitVec.extractLsb'_append_eq_right

@[simp] theorem highByte_ofBytes (hi lo : UInt8) : highByte (ofBytes hi lo) = hi :=
  UInt8.toBitVec_inj.1 BitVec.extractLsb'_append_eq_left

@[simp] theorem lowByte_ofByte (b : UInt8) : lowByte (ofByte b) = b := by
  apply UInt8.toBitVec_inj.1
  ext i hi
  simp [lowByte, ofByte, hi, BitVec.getElem_extractLsb', show i < 16 by omega]

/-- The low `bits` bits of `w`, read as a two's-complement number and widened
to a word. -/
def signExtend (bits : Nat) (w : Word) : Word := (w.setWidth bits).signExtend 16

/-- `signExtend` for the widths that leave room for a sign and something to
extend: 1 to 15. -/
def signExtend? (bits : Nat) (w : Word) : Option Word :=
  if 0 < bits ∧ bits < 16 then some (signExtend bits w) else none

/-- The widths that make no sense: no bits at all, and none left above the
field. -/
theorem signExtend?_eq_none_iff {bits : Nat} {w : Word} :
    signExtend? bits w = none ↔ bits = 0 ∨ 16 ≤ bits := by
  unfold signExtend?
  split
  · simp; omega
  · simp; omega

end Word

end LC3
