import LC3.Instr

/-!
# Computing with checks

A computation that tests what it relies on before it does anything: that a
shift leaves a bit, that a difference is not negative, that an index is in
range, that a case has a meaning. A test that fails is a `Panic`: the
computation ends there, and what it had done by then stays done. Sums of
words go round at 65536 and have no test; sums of bytes have one.

A loop takes turns until it is done, and may never be. A computation is
therefore evaluated with an allowance of turns for each loop, and comes to an
end if some allowance is enough (`ComesTo`). The allowance is the only thing
in which an evaluation differs from another, so what a computation comes to
is stated once for all of them (`Settles`).
-/

namespace LC3

/-- The test that failed. -/
inductive Panic where
  /-- A byte is read past the end of a script. -/
  | outOfInput
  /-- A sign extension is asked for with a width that it is not meant for. -/
  | width
  /-- A difference would be below zero, or a sum of bytes above 255. -/
  | overflow
  /-- A word is shifted by its own length or more. -/
  | shift
  /-- An index is past the end. -/
  | index
  /-- A case arises that cannot. -/
  | unreachable
  /-- A character has more bytes than there is room for. -/
  | room
  /-- A terminal is to leave a mode that it is not in. -/
  | notRaw
  deriving DecidableEq, Repr

/-- A computation on states `σ` that may panic. It is told how many turns a
loop may take. -/
abbrev Checked (σ : Type) := ReaderT Nat (ExceptT Panic (StateT σ Option))

namespace Checked

variable {σ τ α β : Type}

/-- What becomes of a computation: a result or a panic, with the state that
is left, and `none` if a loop has used up its turns. -/
abbrev Eval (σ α : Type) := Option (Except Panic α × σ)

/-- What becomes of `x` from the state `s`, if a loop may take `turns` turns. -/
def eval (x : Checked σ α) (turns : Nat) (s : σ) : Eval σ α := (x.run turns).run.run s

/-- The computation that becomes this. -/
def ofEval (f : Nat → σ → Eval σ α) : Checked σ α := fun turns => ExceptT.mk (f turns)

/-- Goes on with `k` from a result, and stops at a panic. -/
def andThen : Eval σ α → (α → σ → Eval σ β) → Eval σ β
  | some (.ok a, s), k => k a s
  | some (.error p, s), _ => some (.error p, s)
  | none, _ => none

/-- The computation comes to an end with `r` and leaves `t`. -/
def ComesTo (x : Checked σ α) (s : σ) (r : Except Panic α) (t : σ) : Prop :=
  ∃ turns, x.eval turns s = some (r, t)

/-- Puts the state that is left in its place in a larger one. -/
def Eval.putInto (put : σ → τ) : Eval σ α → Eval τ α
  | some (r, s) => some (r, put s)
  | none => none

/-- A computation on a part of the state. -/
def within (look : τ → σ) (put : τ → σ → τ) (x : Checked σ α) : Checked τ α :=
  ofEval fun turns t => (x.eval turns (look t)).putInto (put t)

/-- Takes turns, each from what the last one answered, until one answers that
it was the last. -/
def loopFor (limit : Nat) (turn : β → Checked σ (Option β)) : (turns : Nat) → β → σ → Eval σ Unit
  | 0, _, _ => none
  | turns + 1, b, s =>
    andThen ((turn b).eval limit s) fun
      | some next => loopFor limit turn turns next
      | none => fun s => some (.ok (), s)

def loop (turn : β → Checked σ (Option β)) (b : β) : Checked σ Unit :=
  ofEval fun turns => loopFor turns turn turns b

/-! ## What becomes of computations -/

/-- How a computation goes on after another: with its value, not at all after
a panic, and not at all if it has no end. -/
@[simp] theorem andThen_ok (a : α) (s : σ) (k : α → σ → Eval σ β) :
    andThen (some (.ok a, s)) k = k a s := rfl

@[simp] theorem andThen_error (p : Panic) (s : σ) (k : α → σ → Eval σ β) :
    andThen (some (.error p, s)) k = some (.error p, s) := rfl

@[simp] theorem andThen_none (k : α → σ → Eval σ β) : andThen none k = none := rfl

/-- What becomes of each operation, so that a proof runs a computation by
rewriting. -/
@[simp] theorem eval_pure (a : α) (turns : Nat) (s : σ) :
    (pure a : Checked σ α).eval turns s = some (.ok a, s) := rfl

@[simp] theorem eval_throw (p : Panic) (turns : Nat) (s : σ) :
    (throw p : Checked σ α).eval turns s = some (.error p, s) := rfl

@[simp] theorem eval_get (turns : Nat) (s : σ) :
    (get : Checked σ σ).eval turns s = some (.ok s, s) := rfl

@[simp] theorem eval_modify (f : σ → σ) (turns : Nat) (s : σ) :
    (modify f : Checked σ PUnit).eval turns s = some (.ok ⟨⟩, f s) := rfl

/-- A test of numbers alone leaves the state. -/
@[simp] theorem eval_liftM (e : Except Panic α) (turns : Nat) (s : σ) :
    (liftM e : Checked σ α).eval turns s = some (e, s) := rfl

/-- The turns are given to both parts, for every loop is on its own. -/
@[simp] theorem eval_bind (x : Checked σ α) (f : α → Checked σ β) (turns : Nat) (s : σ) :
    (x >>= f).eval turns s = andThen (x.eval turns s) fun a => (f a).eval turns := by
  simp only [eval, ReaderT.run_bind, ExceptT.run_bind, StateT.run_bind]
  cases (x.run turns).run.run s with
  | none => rfl
  | some r =>
    obtain ⟨e, t⟩ := r
    cases e <;> rfl

@[simp] theorem eval_ite (p : Prop) [Decidable p] (x y : Checked σ α) (turns : Nat) (s : σ) :
    (if p then x else y).eval turns s = if p then x.eval turns s else y.eval turns s := by
  split <;> rfl

@[simp] theorem eval_map (f : α → β) (x : Checked σ α) (turns : Nat) (s : σ) :
    (f <$> x).eval turns s = andThen (x.eval turns s) fun a s => some (.ok (f a), s) := by
  rw [map_eq_pure_bind, eval_bind]
  rfl

@[simp] theorem eval_loop (turn : β → Checked σ (Option β)) (b : β) (turns : Nat) (s : σ) :
    (loop turn b).eval turns s = loopFor turns turn turns b s := rfl

@[simp] theorem putInto_some (put : σ → τ) (r : Except Panic α) (s : σ) :
    Eval.putInto put (some (r, s)) = some (r, put s) := rfl

/-! ## With turns enough -/

/-- With turns enough the computation becomes `r`; with fewer it does not
come to an end. -/
def Settles (x : Checked σ α) (s : σ) (r : Eval σ α) : Prop :=
  ∃ n, ∀ turns, x.eval turns s = if n ≤ turns then r else none

/-- A computation without a loop needs no turns. -/
theorem settles_of_eval {x : Checked σ α} {s : σ} {r : Eval σ α}
    (h : ∀ turns, x.eval turns s = r) : Settles x s r := by
  refine ⟨0, fun turns => ?_⟩
  rw [h, if_pos (Nat.zero_le turns)]

/-- A computation that is as far as another one settles as that does. -/
theorem Settles.of_eval {x y : Checked σ α} {s t : σ} {r : Eval σ α} (hy : Settles y t r)
    (h : ∀ turns, x.eval turns s = y.eval turns t) : Settles x s r := by
  obtain ⟨n, hn⟩ := hy
  exact ⟨n, fun turns => (h turns).trans (hn turns)⟩

/-- What a computation comes to, it comes to with more turns as well. So two
in a row come to something if both do, with the greater of the two numbers of
turns. -/
theorem Settles.bind {x : Checked σ α} {f : α → Checked σ β} {s : σ} {r : Eval σ α}
    {k : α → σ → Eval σ β} (hx : Settles x s r) (hf : ∀ a t, Settles (f a) t (k a t)) :
    Settles (x >>= f) s (andThen r k) := by
  obtain ⟨n, hn⟩ := hx
  cases r with
  | none =>
    refine settles_of_eval fun turns => ?_
    rw [eval_bind, hn, ite_self]
    rfl
  | some r =>
    obtain ⟨_ | a, t⟩ := r
    · refine ⟨n, fun turns => ?_⟩
      rw [eval_bind, hn]
      split <;> rfl
    · -- both have turns enough if the one that needs more has
      obtain ⟨m, hm⟩ := hf a t
      refine ⟨max n m, fun turns => ?_⟩
      rw [eval_bind, hn]
      by_cases h : n ≤ turns
      · rw [if_pos h, andThen_ok, hm]
        simp only [Nat.max_le, h, true_and, andThen_ok]
      · rw [if_neg h, andThen_none, if_neg (by omega)]

/-- A computation comes to one thing at most. -/
theorem Settles.comesTo_iff {x : Checked σ α} {s t : σ} {e : Eval σ α} {r : Except Panic α}
    (h : Settles x s e) : ComesTo x s r t ↔ e = some (r, t) := by
  obtain ⟨n, hn⟩ := h
  constructor
  · rintro ⟨turns, hturns⟩
    rw [hn] at hturns
    split at hturns
    · exact hturns
    · cases hturns
  · rintro rfl
    exact ⟨n, (hn n).trans (if_pos (Nat.le_refl n))⟩

/-! ## Numbers -/

def shiftRight (w : Word) (n : Nat) : Except Panic Word :=
  if n < 16 then .ok (w >>> n) else .error .shift

def shiftLeft (w : Word) (n : Nat) : Except Panic Word :=
  if n < 16 then .ok (w <<< n) else .error .shift

def sub (v w : Word) : Except Panic Word := if w ≤ v then .ok (v - w) else .error .overflow

/-- The number before `n`. -/
def pred (n : Nat) : Except Panic Nat := if 0 < n then .ok (n - 1) else .error .overflow

def subByte (a b : UInt8) : Except Panic UInt8 := if b ≤ a then .ok (a - b) else .error .overflow

def addByte (a b : UInt8) : Except Panic UInt8 :=
  if a.toNat + b.toNat < 256 then .ok (a + b) else .error .overflow

/-- The bytes of a character in UTF-8, written where there is room for `room`
of them. -/
def encode (c : Char) (room : Nat) : Except Panic (List UInt8) :=
  let bytes := String.utf8EncodeChar c
  if bytes.length ≤ room then .ok bytes else .error .room

/-- Widens the low `bits` bits: the others are masked off, and set again if
the sign is. -/
def signExtend (val : Word) (bits : Nat) : Except Panic Word :=
  if 0 < bits ∧ bits < 16 then do
    let val := val &&& (← sub (← shiftLeft 1 bits) 1)
    let sign ← shiftRight val (← pred bits)
    if sign &&& 1 = 0 then return val
    else return val ||| (← shiftLeft 0xFFFF bits)
  else .error .width

/-- The opcode with this number, of which there are sixteen. -/
def opcodeOfNat : Nat → Except Panic Opcode
  | 0x0 => .ok .br
  | 0x1 => .ok .add
  | 0x2 => .ok .ld
  | 0x3 => .ok .st
  | 0x4 => .ok .jsr
  | 0x5 => .ok .and
  | 0x6 => .ok .ldr
  | 0x7 => .ok .str
  | 0x8 => .ok .rti
  | 0x9 => .ok .not
  | 0xA => .ok .ldi
  | 0xB => .ok .sti
  | 0xC => .ok .jmp
  | 0xD => .ok .res
  | 0xE => .ok .lea
  | 0xF => .ok .trap
  | _ => .error .unreachable

def opcode (instr : Word) : Except Panic Opcode := do opcodeOfNat (← shiftRight instr 12).toNat

/-- The number in the three bits of an instruction from bit `low` up. -/
def fieldAt (instr : Word) (low : Nat) : Except Panic Word :=
  return (← shiftRight instr low) &&& 0b111

/-! ## Arrays -/

/-- The word in place `i`. -/
def wordAt {n : Nat} (words : Vector Word n) (i : Nat) : Except Panic Word :=
  if h : i < n then .ok words[i] else .error .index

/-- The words with another one in place `i`. -/
def putAt {n : Nat} (words : Vector Word n) (i : Nat) (w : Word) : Except Panic (Vector Word n) :=
  if h : i < n then .ok (words.set i w h) else .error .index

end Checked

end LC3
