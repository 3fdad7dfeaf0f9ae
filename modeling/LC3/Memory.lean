import LC3.Word

/-!
# Memory

The 65536 words of the address space. `peek` is the view: every operation is
described by what `peek` sees after it, and two memories that look alike at
every address are equal (`ext_peek`). The two keyboard registers are words
like any other here; what reading the status register does is said where
memory and console meet.
-/

namespace LC3

/-- Keyboard status register: bit 15 is set when a key is latched. -/
def kbsr : Word := 0xFE00

/-- Keyboard data register: the latched key. -/
def kbdr : Word := 0xFE02

/-- All words of the address space. -/
structure Memory where
  cells : Vector Word 65536

namespace Memory

def zeroed : Memory := ⟨.replicate _ 0⟩

def peek (m : Memory) (a : Word) : Word :=
  have := a.isLt
  m.cells[a.toNat]

/-- Changes one word. The keyboard registers are written like any other word. -/
def write (m : Memory) (a w : Word) : Memory := ⟨m.cells.set a.toNat w a.isLt⟩

/-- Writes words at consecutive addresses from `a`, going on at address 0
after the last one. This is not how an image gets into memory (`fill`): it
stands for a user who sets a machine up by single writes, one after the
other, and no part of the machine does it. -/
def writeAll (m : Memory) (a : Word) : List Word → Memory
  | [] => m
  | w :: ws => (m.write a w).writeAll (a + 1) ws

/-- How many addresses there are from `a` to the end of memory. It stands for
what a user learns of the room behind `a`; loading does not ask, since `fill`
drops what does not fit. -/
def tailLength (a : Word) : Nat := 65536 - a.toNat

/-- Puts words at consecutive addresses from `a`; those past the end of
memory are dropped. -/
def fill (m : Memory) (a : Nat) : List Word → Memory
  | [] => m
  | w :: ws => if h : a < 65536 then fill ⟨m.cells.set a w h⟩ (a + 1) ws else m

/-! ## The view -/

@[simp] theorem peek_zeroed (a : Word) : zeroed.peek a = 0 := by
  simp [peek, zeroed]

theorem peek_write (m : Memory) (a b w : Word) :
    (m.write a w).peek b = if b = a then w else m.peek b := by
  simp only [peek, write, Vector.getElem_set, ← BitVec.toNat_inj, eq_comm]

@[simp] theorem peek_write_self (m : Memory) (a w : Word) : (m.write a w).peek a = w := by
  simp [peek_write]

/-- Memories that hold the same words are equal. -/
theorem ext_peek {m m' : Memory} (h : ∀ a, m.peek a = m'.peek a) : m = m' := by
  obtain ⟨c⟩ := m
  obtain ⟨c'⟩ := m'
  have : c = c' := by
    refine Vector.ext fun i hi => ?_
    have := h (BitVec.ofNat 16 i)
    simpa only [peek, BitVec.toNat_ofNat, Nat.mod_eq_of_lt hi] using this
  rw [this]

/-- `fill` reaches exactly the addresses from `a` on that a word is left for,
and stops at the end of memory without going round. -/
theorem peek_fill (m : Memory) (a : Nat) (ws : List Word) (b : Word) :
    (m.fill a ws).peek b =
      if h : a ≤ b.toNat ∧ b.toNat - a < ws.length then ws.get ⟨b.toNat - a, h.2⟩
      else m.peek b := by
  induction ws generalizing m a with
  | nil => simp [fill]
  | cons w ws ih =>
    have hb := b.isLt
    unfold fill
    split
    next ha =>
      rw [ih]
      by_cases hab : a = b.toNat
      · subst hab
        rw [dif_neg (by omega), dif_pos (by simp)]
        simp [peek]
      · by_cases hlt : a < b.toNat
        · by_cases hlen : b.toNat - (a + 1) < ws.length
          · rw [dif_pos ⟨by omega, hlen⟩, dif_pos ⟨by omega, by simp; omega⟩]
            have : b.toNat - a = b.toNat - (a + 1) + 1 := by omega
            simp [this]
          · rw [dif_neg (by omega), dif_neg (by simp; omega)]
            simp [peek, hab]
        · rw [dif_neg (by omega), dif_neg (by omega)]
          simp [peek, hab]
    next ha => rw [dif_neg (by omega)]

end Memory

end LC3
