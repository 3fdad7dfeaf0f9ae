import LC3.Console.Script
import LC3.Proofs.Lockstep

/-!
# A run depends only on the words it looks at

Where control goes, which address is loaded from and how long a string is all
come out of memory, so a word that no step looks at might still steer a run
if looking were defined too narrowly. It does not. A step looks at the words
it reads and at those that the scan of a string visits, its end included
(`Machine.LooksAt`), and at no others.

Two machines that agree outside a set of addresses answer alike as long as
the first one does not look into the set, and the set shrinks by what they
write:

> `Machine.AlikeOff.steps`: any number of steps;
> `run_depends_on_looks`: the same for a set of one address, which is then
> gone if it was written.
-/

namespace LC3

variable {κ : Type} [Console κ]

/-- **Any number of steps that do not look into `off` go alike**, and what
they have not written is all that is left of it. -/
theorem Machine.AlikeOff.steps (k : Nat) : ∀ {off : Word → Prop} {m n : Machine κ},
    AlikeOff off Eq m n → (∀ i < k, ∀ b, (m.steps i).LooksAt b → ¬ off b) →
    m.answers k = n.answers k ∧
      AlikeOff (fun b => off b ∧ ∀ i < k, b ∉ (m.steps i).writes) Eq (m.steps k) (n.steps k) := by
  induction k with
  | zero =>
    intro off m n h _
    exact ⟨rfl, h.mono fun b hb => ⟨hb, fun i hi => absurd hi (Nat.not_lt_zero i)⟩⟩
  | succ k ih =>
    intro off m n h hlooks
    obtain ⟨hanswer, hstep⟩ := h.step Console.alikeWhen_eq (fun _ => trivial) (fun _ _ => trivial)
      (hlooks 0 (Nat.zero_lt_succ k))
    -- the rest of the run does not look into what the first step has left of the
    -- set either
    obtain ⟨hanswers, hsteps⟩ := ih hstep fun i hi b hb hoff =>
      hlooks (i + 1) (Nat.succ_lt_succ hi) b hb hoff.1
    refine ⟨List.cons_eq_cons.2 ⟨hanswer, hanswers⟩, hsteps.mono ?_⟩
    intro b ⟨⟨hoff, hfirst⟩, hrest⟩
    refine ⟨hoff, fun i hi => ?_⟩
    cases i with
    | zero => exact hfirst
    | succ i => exact hrest i (Nat.lt_of_succ_lt_succ hi)

omit [Console κ] in
/-- Machines over the same console that agree everywhere are one. -/
theorem Machine.Alike.eq {m n : Machine κ} (h : Alike Eq m n) : m = n := by
  obtain ⟨⟨regs, mem, console⟩, status, ignore⟩ := m
  obtain ⟨⟨regs', mem', console'⟩, status', ignore'⟩ := n
  obtain ⟨⟨rfl, rfl, rfl⟩, rfl, rfl⟩ := h
  rfl

namespace Footprint

/-- The machines are the same, with the same console, but for the word at
`a`. -/
def SameBut (a : Word) (m n : Machine κ) : Prop := Machine.AlikeOff (· = a) Eq m n

/-- **A run depends only on the words it looks at.** Two machines are the
same but for the word at one address, whichever it is. If the first one takes
`n` steps and looks at that word in none of them, the second answers its `n`
steps alike and is the same again but for that word; and if one of the steps
wrote the word, the two are the same altogether. -/
theorem run_depends_on_looks (a : Word) (m m' : Machine κ) (n : Nat) (hsame : SameBut a m m')
    (hlooks : ∀ i < n, ¬ (m.steps i).LooksAt a) :
    m'.answers n = m.answers n ∧ SameBut a (m.steps n) (m'.steps n) ∧
      ((∃ i < n, a ∈ (m.steps i).writes) → m.steps n = m'.steps n) := by
  obtain ⟨hanswers, hsteps⟩ :=
    Machine.AlikeOff.steps n hsame fun i hi b hb hba => hlooks i hi (hba ▸ hb)
  refine ⟨hanswers.symm, hsteps.mono fun b hb => hb.1, ?_⟩
  rintro ⟨i, hi, hwritten⟩
  -- the word was written, so the set of those that may differ is empty
  refine (hsteps.alike fun b hb => ?_).eq
  obtain ⟨rfl, hnever⟩ := hb
  exact hnever i hi hwritten

/-- A load from the keyboard status register while the key A waits. -/
def latching : Machine Script := .about 0xFDFF 0x2000 (.ofInput [0x41])

/-- The same with a word in the keyboard data register that an earlier key
has left. -/
def latchingOver (stale : Word) : Machine Script :=
  { latching with mem := latching.mem.write kbdr stale }

/-- The load looks at the status register, not at the data register, which
the key overwrites. -/
theorem run_depends_on_looks_latching :
    (latchingOver 0x7F).mem.peek kbdr ≠ latching.mem.peek kbdr ∧
    (latchingOver 0x7F).answers 1 = latching.answers 1 ∧
    latching.steps 1 = (latchingOver 0x7F).steps 1 := by
  have hdiffer : (latchingOver 0x7F).mem.peek kbdr ≠ latching.mem.peek kbdr := by
    have hold : latching.mem.peek kbdr = 0 :=
      (Memory.peek_write _ _ _ _).trans ((if_neg (by decide)).trans (Memory.peek_zeroed kbdr))
    rw [hold]
    exact fun h => absurd ((Memory.peek_write_self _ kbdr 0x7F).symm.trans h) (by decide)
  have hsame : SameBut kbdr latching (latchingOver 0x7F) := by
    refine ⟨⟨rfl, fun b hb => ?_, rfl⟩, rfl, rfl⟩
    exact ((Memory.peek_write _ kbdr b 0x7F).trans (if_neg hb)).symm
  have hdecode : latching.word.decode = .instr (.ld 0 0) := by
    rw [latching, Machine.word_about (by decide)]
    decide
  have hfetched : latching.fetched = latching.toCore.jump kbsr :=
    (Machine.word_of_pc_ne (m := latching) (by decide)).2
  have hreads : latching.reads = [0xFDFF, kbsr] := by
    rw [Machine.reads_of_instr rfl hdecode, hfetched]
    rfl
  have hwrites : latching.writes = [kbsr, kbdr] := by
    rw [Machine.writes_of_instr rfl hdecode, hfetched]
    rfl
  have hlooks : ∀ i < 1, ¬ (latching.steps i).LooksAt kbdr := by
    intro i hi hlook
    obtain rfl : i = 0 := Nat.lt_one_iff.1 hi
    rcases hlook with hread | ⟨-, vector, t, htrap, -⟩
    · rw [Machine.steps, hreads] at hread
      exact absurd hread (by decide)
    · exact absurd (hdecode.symm.trans htrap) nofun
  obtain ⟨hanswers, -, hequal⟩ :=
    run_depends_on_looks kbdr latching (latchingOver 0x7F) 1 hsame hlooks
  refine ⟨hdiffer, hanswers, hequal ⟨0, Nat.zero_lt_one, ?_⟩⟩
  rw [Machine.steps, hwrites]
  decide

end Footprint

end LC3
