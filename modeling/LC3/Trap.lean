import LC3.Core

/-!
# Trap routines

The six services that a program calls with TRAP. Two of them print a string:
the words from the address in register 0 up to the first zero word, going on
at address 0 after the last one. They look at memory without polling the
keyboard, and they end exactly if memory holds a zero word at all
(`string?_eq_none_iff`).
-/

namespace LC3

/-- Whether the word `j` places past `a` ends a string that starts at `a`. -/
def Memory.EndsAt (m : Memory) (a : Word) (j : Nat) : Prop := m.peek (a + BitVec.ofNat 16 j) = 0

instance (m : Memory) (a : Word) (j : Nat) : Decidable (m.EndsAt a j) :=
  inferInstanceAs (Decidable (_ = _))

namespace Memory

/-- The first of the `left` places from the `j`th on that ends a string
starting at `a`. -/
def endFrom? (m : Memory) (a : Word) (j : Nat) : (left : Nat) → Option Nat
  | 0 => none
  | left + 1 => if m.EndsAt a j then some j else m.endFrom? a (j + 1) left

/-- How many words there are from `a` up to the first zero word; `none` if no
word is zero. -/
def stringLength? (m : Memory) (a : Word) : Option Nat := m.endFrom? a 0 65536

/-- The `n` words from `a` on, going on at address 0 after the last one. -/
def wordsFrom (m : Memory) (a : Word) (n : Nat) : List Word :=
  List.ofFn fun i : Fin n => m.peek (a + BitVec.ofNat 16 i)

/-- The words from `a` up to the first zero word; `none` if no word is zero. -/
def string? (m : Memory) (a : Word) : Option (List Word) :=
  (m.stringLength? a).map (m.wordsFrom a)

/-- The search finds the first end. By recursion on the places that are left. -/
theorem endFrom?_eq_some_iff {m : Memory} {a : Word} {j left k : Nat} :
    m.endFrom? a j left = some k ↔
      j ≤ k ∧ k < j + left ∧ m.EndsAt a k ∧ ∀ i, j ≤ i → i < k → ¬ m.EndsAt a i := by
  induction left generalizing j with
  | zero => simp [endFrom?]; omega
  | succ left ih =>
    unfold endFrom?
    split
    next h =>
      constructor
      · rintro ⟨⟩
        exact ⟨Nat.le_refl _, by omega, h, fun i _ _ => by omega⟩
      · rintro ⟨hjk, -, -, hmin⟩
        rcases Nat.lt_or_ge j k with hlt | hge
        · exact absurd h (hmin j (Nat.le_refl _) hlt)
        · rw [Nat.le_antisymm hjk hge]
    next h =>
      rw [ih]
      constructor
      · rintro ⟨hjk, hk, hend, hmin⟩
        refine ⟨by omega, by omega, hend, fun i hi hik => ?_⟩
        rcases Nat.eq_or_lt_of_le hi with rfl | hlt
        · exact h
        · exact hmin i hlt hik
      · rintro ⟨hjk, hk, hend, hmin⟩
        have : j ≠ k := fun e => h (e ▸ hend)
        exact ⟨by omega, by omega, hend, fun i hi hik => hmin i (by omega) hik⟩

theorem endFrom?_eq_none_iff {m : Memory} {a : Word} {j left : Nat} :
    m.endFrom? a j left = none ↔ ∀ i, j ≤ i → i < j + left → ¬ m.EndsAt a i := by
  induction left generalizing j with
  | zero => simp [endFrom?]; omega
  | succ left ih =>
    unfold endFrom?
    split
    next h => exact ⟨nofun, fun hall => absurd h (hall j (Nat.le_refl _) (by omega))⟩
    next h =>
      rw [ih]
      refine ⟨fun hall i hi hil => ?_, fun hall i hi hil => hall i (by omega) (by omega)⟩
      rcases Nat.eq_or_lt_of_le hi with rfl | hlt
      · exact h
      · exact hall i hlt (by omega)

/-- The length is the least distance of a zero word, counted on through the
end of memory. -/
theorem stringLength?_eq_some_iff {m : Memory} {a : Word} {j : Nat} :
    m.stringLength? a = some j ↔ j < 65536 ∧ m.EndsAt a j ∧ ∀ i < j, ¬ m.EndsAt a i := by
  simp [stringLength?, endFrom?_eq_some_iff]

/-- A string has no end only if no word of memory is zero. Where it starts
makes no difference, because the search goes round once. -/
theorem string?_eq_none_iff {m : Memory} {a : Word} :
    m.string? a = none ↔ ∀ b, m.peek b ≠ 0 := by
  simp only [string?, Option.map_eq_none_iff, stringLength?, endFrom?_eq_none_iff]
  constructor
  · intro h b hb
    refine h (b - a).toNat (Nat.zero_le _) (by have := (b - a).isLt; omega) ?_
    rw [EndsAt, BitVec.ofNat_toNat, BitVec.setWidth_eq, BitVec.add_comm, BitVec.sub_add_cancel, hb]
  · intro h i _ _
    exact h _

end Memory

/-- The routines that a call may name, by what they do. The vectors 0x20 to
0x25 stand for them in this order. -/
inductive Trap where
  /-- Read a character into register 0. -/
  | getc
  /-- Write the character in register 0. -/
  | out
  /-- Write the string at register 0, one character a word. -/
  | puts
  /-- Ask for a character, read it into register 0 and write it. -/
  | prompt
  /-- Write the string at register 0, two characters a word. -/
  | putsp
  | halt
  deriving DecidableEq, Repr

namespace Trap

def ofVector? (vector : UInt8) : Option Trap :=
  match vector.toNat with
  | 0x20 => some .getc
  | 0x21 => some .out
  | 0x22 => some .puts
  | 0x23 => some .prompt
  | 0x24 => some .putsp
  | 0x25 => some .halt
  | _ => none

theorem ofVector?_eq_none_iff {vector : UInt8} :
    ofVector? vector = none ↔ vector < 0x20 ∨ 0x25 < vector := by
  have hlow : (0x20 : UInt8).toNat = 32 := rfl
  have hhigh : (0x25 : UInt8).toNat = 37 := rfl
  rw [UInt8.lt_iff_toNat_lt, UInt8.lt_iff_toNat_lt, hlow, hhigh]
  unfold ofVector?
  split
  case h_7 => grind
  all_goals simp only [reduceCtorEq, false_iff]; omega

/-- What `prompt` writes before it reads. -/
def promptText : List UInt8 := "Enter a character: ".toUTF8.data.toList

/-- What `halt` writes. -/
def haltText : List UInt8 := "HALT\n".toUTF8.data.toList

/-- The characters of a word that holds two: the low one, and the high one
unless it is zero. -/
def packedBytes (w : Word) : List UInt8 :=
  if w.highByte = 0 then [w.lowByte] else [w.lowByte, w.highByte]

/-- How a routine ends. Only the first two go back to the program. -/
inductive End where
  | resume
  | halt
  /-- The routine needs an input byte that the console does not have. -/
  | starved
  /-- The routine writes these bytes over and over. -/
  | endless (cycle : List UInt8)
  deriving DecidableEq, Repr

variable {κ : Type} [Console κ]

/-- Writes bytes and hands them on at once: what a program has printed is
seen before it goes on. -/
def print (bytes : List UInt8) (c : Core κ) : Core κ :=
  { c with console := Console.flush (Console.writeAll bytes c.console) }

/-- Writes the string at register 0, as the bytes that `encode` gives for its
words. -/
def printString (encode : List Word → List UInt8) (c : Core κ) : End × Core κ :=
  match c.mem.string? (c.regs.get 0) with
  | some words => (.resume, print (encode words) c)
  | none => (.endless (encode (c.mem.wordsFrom (c.regs.get 0) 65536)), c)

/-- Carries out a routine on the core that has called it. What has been
written before a byte turns out to be missing stays written. -/
def run (t : Trap) (c : Core κ) : End × Core κ :=
  match t with
  | .getc =>
    match Console.readByte? c.console with
    | some (b, console) => (.resume, { c with console }.setResult 0 (.ofByte b))
    | none => (.starved, c)
  | .out => (.resume, print [(c.regs.get 0).lowByte] c)
  | .puts => printString (·.map Word.lowByte) c
  | .prompt =>
    let c := print promptText c
    match Console.readByte? c.console with
    | some (b, console) => (.resume, (print [b] { c with console }).setResult 0 (.ofByte b))
    | none => (.starved, c)
  | .putsp => printString (·.flatMap packedBytes) c
  | .halt => (.halt, print haltText c)

end Trap

end LC3
