import LC3.Trap

/-!
# Printing a string, word by word

`Trap.printString` looks for the end of a string first and then writes all of
it. A routine has no such foresight: it looks at one word at a time, writes
it, and goes on at the next address. This file says what that loop does
(`PrintLoop`, one turn for each word) and proves that the two agree:

> `printLoop_iff`: the loop ends exactly when the string has an end, and has
> then written exactly the string; `exists_printLoop_iff`: from any address
> it ends if any word of memory is zero, and never ends if none is.

The measure of the loop is the distance of the next zero word, counted on
through 65535 to 0 (`string?_of_ne`): a turn brings it one closer, and it is
never 65536 or more away.
-/

namespace LC3

namespace Memory

theorem place_zero (a : Word) : a + BitVec.ofNat 16 0 = a :=
  BitVec.add_zero a

/-- The place `j + 1` past an address is the place `j` past the next. -/
theorem place_succ (a : Word) (j : Nat) :
    a + BitVec.ofNat 16 (j + 1) = a + 1 + BitVec.ofNat 16 j := by
  rw [Nat.add_comm j 1, BitVec.ofNat_add, BitVec.add_assoc]
  rfl

theorem endsAt_zero (m : Memory) (a : Word) : m.EndsAt a 0 ↔ m.peek a = 0 := by
  rw [EndsAt, place_zero]

theorem endsAt_succ (m : Memory) (a : Word) (j : Nat) :
    m.EndsAt a (j + 1) ↔ m.EndsAt (a + 1) j := by
  rw [EndsAt, EndsAt, place_succ]

theorem string?_of_zero {m : Memory} {a : Word} (h : m.peek a = 0) : m.string? a = some [] := by
  have hlen : m.stringLength? a = some 0 := by
    rw [stringLength?_eq_some_iff]
    exact ⟨by decide, (endsAt_zero m a).2 h, fun i hi => absurd hi (Nat.not_lt_zero i)⟩
  rw [string?, hlen]
  rfl

/-- A word that is not zero puts the end of the string one place further. The
search must not find the word itself again after it has gone round, and it
does not, because that word is not zero. -/
theorem stringLength?_of_ne {m : Memory} {a : Word} (h : m.peek a ≠ 0) {j : Nat}
    (hj : m.stringLength? (a + 1) = some j) : m.stringLength? a = some (j + 1) := by
  obtain ⟨hlt, hend, hmin⟩ := stringLength?_eq_some_iff.1 hj
  -- the place 65535 past the next address is the address itself, whose word is not zero
  have hne : j ≠ 65535 := by
    intro he
    subst he
    have hback : a + 1 + BitVec.ofNat 16 65535 = a := by
      rw [← place_succ]
      exact place_zero a
    rw [EndsAt, hback] at hend
    exact h hend
  refine stringLength?_eq_some_iff.2 ⟨by omega, (endsAt_succ m a j).2 hend, ?_⟩
  intro i hi
  cases i with
  | zero => exact fun he => h ((endsAt_zero m a).1 he)
  | succ i => exact fun he => hmin i (by omega) ((endsAt_succ m a i).1 he)

theorem wordsFrom_succ (m : Memory) (a : Word) (n : Nat) :
    m.wordsFrom a (n + 1) = m.peek a :: m.wordsFrom (a + 1) n := by
  rw [wordsFrom, List.ofFn_succ]
  congr 1
  · exact congrArg m.peek (place_zero a)
  · rw [wordsFrom]
    congr 1
    funext i
    exact congrArg m.peek (place_succ a i)

/-- A string whose first word is not zero is that word and the string behind
it. -/
theorem string?_of_ne {m : Memory} {a : Word} (h : m.peek a ≠ 0) :
    m.string? a = (m.string? (a + 1)).map (m.peek a :: ·) := by
  cases hj : m.stringLength? (a + 1) with
  | none =>
    have hnone : m.string? (a + 1) = none := by rw [string?, hj]; rfl
    rw [hnone]
    exact string?_eq_none_iff.2 (string?_eq_none_iff.1 hnone)
  | some j =>
    rw [string?, string?, stringLength?_of_ne h hj, hj]
    exact congrArg some (wordsFrom_succ m a j)

end Memory

/-! ## The loop -/

variable {κ : Type} [Console κ]

/-- The loop of a routine that prints a string with `bytes` for each word:
from address `a` and console `s` it comes to its end with console `t`. -/
inductive PrintLoop (m : Memory) (bytes : Word → List UInt8) : Word → κ → κ → Prop
  /-- A zero word ends the string. -/
  | stop {a : Word} {s : κ} (h : m.peek a = 0) : PrintLoop m bytes a s s
  /-- Any other word is written, and the loop goes on behind it. -/
  | turn {a : Word} {s t : κ} (h : m.peek a ≠ 0)
      (rest : PrintLoop m bytes (a + 1) (Console.writeAll (bytes (m.peek a)) s) t) :
      PrintLoop m bytes a s t

/-- **The loop writes the string.** It ends where the string does, and only
if the string does. -/
theorem printLoop_iff {m : Memory} {bytes : Word → List UInt8} {a : Word} {s t : κ} :
    PrintLoop m bytes a s t ↔
      ∃ ws, m.string? a = some ws ∧ t = Console.writeAll (ws.flatMap bytes) s := by
  constructor
  · intro h
    induction h with
    | stop h => exact ⟨[], Memory.string?_of_zero h, rfl⟩
    -- the word that is written in this turn is the first of the string
    | @turn a s t h _ ih =>
      obtain ⟨ws, hws, rfl⟩ := ih
      refine ⟨m.peek a :: ws, ?_, ?_⟩
      · rw [Memory.string?_of_ne h, hws]
        rfl
      · rw [List.flatMap_cons, Console.writeAll_append]
  · intro ⟨ws, hws, ht⟩
    subst ht
    -- the string gets shorter by a word with each turn
    induction ws generalizing a s with
    | nil =>
      by_cases h : m.peek a = 0
      · exact .stop h
      · rw [Memory.string?_of_ne h] at hws
        cases hrest : m.string? (a + 1) <;> rw [hrest] at hws <;> simp at hws
    | cons w ws ih =>
      by_cases h : m.peek a = 0
      · rw [Memory.string?_of_zero h] at hws
        simp at hws
      · rw [Memory.string?_of_ne h] at hws
        obtain ⟨vs, hvs, heq⟩ := Option.map_eq_some_iff.1 hws
        obtain ⟨rfl, rfl⟩ := List.cons.inj heq
        rw [List.flatMap_cons, Console.writeAll_append]
        exact .turn h (ih hvs)

/-- The loop comes to an end, wherever it starts, exactly if there is a zero
word to end it. -/
theorem exists_printLoop_iff {m : Memory} {bytes : Word → List UInt8} {a : Word} {s : κ} :
    (∃ t, PrintLoop m bytes a s t) ↔ ∃ b, m.peek b = 0 := by
  -- the loop has an end if the search finds one, and the search looks at every
  -- address once
  have hstring : (∃ t, PrintLoop m bytes a s t) ↔ m.string? a ≠ none := by
    rw [Option.ne_none_iff_exists']
    constructor
    · intro ⟨t, h⟩
      obtain ⟨ws, hws, -⟩ := printLoop_iff.1 h
      exact ⟨ws, hws⟩
    · intro ⟨ws, hws⟩
      exact ⟨_, printLoop_iff.2 ⟨ws, hws, rfl⟩⟩
  rw [hstring, ne_eq, Memory.string?_eq_none_iff, Classical.not_forall]
  exact exists_congr fun b => Classical.not_not

/-- A routine that prints a string returns as its loop does, with the output
handed on. -/
theorem Trap.printString_eq_resume_iff {bytes : Word → List UInt8} {c d : Core κ} :
    printString (·.flatMap bytes) c = (.resume, d) ↔
      ∃ t, PrintLoop c.mem bytes (c.regs.get 0) c.console t ∧
        d = { c with console := Console.flush t } := by
  unfold printString
  split
  next ws hws =>
    constructor
    · intro h
      cases h
      exact ⟨_, printLoop_iff.2 ⟨ws, hws, rfl⟩, rfl⟩
    · intro ⟨t, ht, hd⟩
      subst hd
      obtain ⟨vs, hvs, rfl⟩ := printLoop_iff.1 ht
      cases hws.symm.trans hvs
      rfl
  next hnone =>
    constructor
    · intro h
      cases h
    · intro ⟨t, ht, _⟩
      obtain ⟨vs, hvs, -⟩ := printLoop_iff.1 ht
      cases hnone.symm.trans hvs

end LC3
