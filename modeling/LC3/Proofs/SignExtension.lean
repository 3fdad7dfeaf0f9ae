import LC3.Proofs.Checks

/-!
# Widening a field

Every address and every number of an instruction is a field of its word,
widened by a mask, a look at the sign bit and ones above it. What comes out
is the number that the field stands for in two's complement, for each width
alike: the least, with a sign and nothing below it, and the greatest, with a
single place to extend. The payoff:

> `widens_by_sign`: widening panics for the widths that it is not meant for
> and for no other, and what it gives has the number, the range and the low
> bits that it should have, and is not changed by widening it again.

The operations are settled in `Checked.signExtend_eq`, and the arithmetic in
`Word.toInt_signExtend` and the lemmas about `Word.signed` beside it. Here
the two are put together.
-/

namespace LC3.SignExtension

open Checked

/-- What the low `bits` bits of `val` are widened to. -/
structure Widens (val : Word) (bits : Nat) (r : Word) : Prop where
  /-- The field itself below half the modulus, and the modulus less than it from there on. -/
  toInt : r.toInt =
    if val.toNat % 2 ^ bits < 2 ^ (bits - 1) then ((val.toNat % 2 ^ bits : Nat) : Int)
    else (val.toNat % 2 ^ bits : Nat) - 2 ^ bits
  le : -2 ^ (bits - 1) ≤ r.toInt
  lt : r.toInt < 2 ^ (bits - 1)
  emod : r.toInt % 2 ^ bits = val.toNat % 2 ^ bits
  /-- The bits above the field do not count. -/
  low : ∀ val' : Word, val'.toNat % 2 ^ bits = val.toNat % 2 ^ bits → signExtend val' bits = .ok r
  /-- Widening it again, from as wide a field or a wider one, changes nothing. -/
  again : ∀ c, bits ≤ c → c ≤ 15 → signExtend r c = .ok r

variable {bits : Nat}

/-- The only test that can fail is that of the width. -/
theorem signExtend_eq_error_iff {val : Word} {e : Panic} :
    signExtend val bits = .error e ↔ e = .width ∧ (bits = 0 ∨ 16 ≤ bits) := by
  have hwidth : (bits = 0 ∨ 16 ≤ bits) ↔ ¬ (0 < bits ∧ bits < 16) := by omega
  rw [signExtend_eq, hwidth]
  by_cases h : 0 < bits ∧ bits < 16
  · simp [h]
  · simp [h, eq_comm]

/-- Without the panic it is the widening that gives nothing for a width that
makes no sense. -/
theorem toOption_signExtend (val : Word) :
    (signExtend val bits).toOption = Word.signExtend? bits val := by
  rw [signExtend_eq, Word.signExtend?]
  split <;> rfl

theorem signExtend_congr (h0 : 0 < bits) (h16 : bits < 16) {v w : Word}
    (h : v.toNat % 2 ^ bits = w.toNat % 2 ^ bits) :
    Word.signExtend bits v = Word.signExtend bits w := by
  rw [Word.signExtend_eq_wrap h0 h16, Word.signExtend_eq_wrap h0 h16, Word.signed_congr h]

/-- **What a field is widened to**, for any width that leaves room for a
sign. -/
theorem widens_signExtend (h0 : 0 < bits) (h16 : bits < 16) (val : Word) :
    Widens val bits (Word.signExtend bits val) := by
  have hnumber := Word.toInt_signExtend h0 h16 val
  constructor
  · exact hnumber
  · rw [hnumber]
    exact Word.le_signed h0 val
  · rw [hnumber]
    exact Word.signed_lt h0 val
  · rw [hnumber]
    exact Word.signed_emod bits val
  · intro val' h
    rw [signExtend_ok h0 h16, signExtend_congr h0 h16 h]
  -- a width as great or greater finds the sign copied already
  · intro c hc h15
    rw [signExtend_ok (by omega) (by omega), Word.signExtend_signExtend h0 hc (by omega)]

/-- **Widening is by the sign, for every width.** It panics exactly if the
width is 0, or 16 or more, and then for the width alone: no shift and no
difference in it is out of range. Otherwise it gives the number that the
field stands for in two's complement. -/
theorem widens_by_sign (val : Word) (bits : Nat) :
    ((∃ e, signExtend val bits = .error e) ↔ bits = 0 ∨ 16 ≤ bits) ∧
    (∀ e, signExtend val bits = .error e → e = .width) ∧
    (0 < bits → bits < 16 → ∃ r, signExtend val bits = .ok r ∧ Widens val bits r) ∧
    (signExtend val bits).toOption = Word.signExtend? bits val := by
  simp only [signExtend_eq_error_iff]
  refine ⟨?_, fun e h => h.1, ?_, toOption_signExtend val⟩
  · constructor
    · rintro ⟨e, -, h⟩
      exact h
    · intro h
      exact ⟨.width, rfl, h⟩
  · intro h0 h16
    exact ⟨_, signExtend_ok h0 h16 val, widens_signExtend h0 h16 val⟩

/-- At the greatest width there is one place to extend, and bit 14 is the
sign. -/
theorem widens_by_sign_fifteen :
    0 < 15 ∧ 15 < 16 ∧ signExtend 0x4000 15 = .ok 0xC000 ∧ Widens 0x4000 15 0xC000 := by
  obtain ⟨-, -, hwidens, -⟩ := widens_by_sign 0x4000 15
  obtain ⟨r, hr, h⟩ := hwidens (by decide) (by decide)
  have hvalue : signExtend 0x4000 15 = .ok 0xC000 := rfl
  obtain rfl : r = 0xC000 := Except.ok.inj (hr.symm.trans hvalue)
  exact ⟨by decide, by decide, hr, h⟩

end LC3.SignExtension
