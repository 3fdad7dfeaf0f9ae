import LC3.Console.Recorder
import LC3.Console.Script
import LC3.Proofs.ConsoleCalls
import LC3.Proofs.Lockstep

/-!
# Output is handed on before the machine waits or stops

A machine writes in three ways: one character, a string, or a text of its own
before or after a read. Each time it hands the output on at once, so between
two operations of the machine nothing that was written is left behind. A
console that keeps a record of its calls shows this, whatever it is inside.

A property of the record that polls, reads and prints keep is kept by every
step (`Console.Keeps.step`), so it is enough to look at the ends of three
short lists of calls.

> `keeps_settled`: polls, reads and prints keep a record in which every write
> has a flush behind it, and had one before every read;
> `flushed_before_waiting`: the record of a machine that has begun without
> one, after any steps.
-/

namespace LC3

variable {κ : Type} [Console κ]

namespace FlushOrder

/-! ## Records -/

/-- Everything that has been written has been flushed: behind every write
there is a flush. -/
def Flushed (calls : List Call) : Prop :=
  ∀ before b after, calls = before ++ .write b :: after → .flush ∈ after

/-- At every read, everything that had been written before it had been
flushed. -/
def FlushedAtReads (calls : List Call) : Prop :=
  ∀ before after, calls = before ++ .read :: after → Flushed before

/-- A machine that is about to begin a record. -/
def recorded (m : Machine κ) : Machine (Recorder κ) :=
  { m with console := { console := m.console } }

variable {calls : List Call}

/-- A call is the last one, or it has been made before. -/
theorem eq_of_concat {before after : List Call} {last call : Call}
    (h : calls ++ [last] = before ++ call :: after) :
    (call = last ∧ before = calls ∧ after = []) ∨
      ∃ rest, after = rest ++ [last] ∧ calls = before ++ call :: rest := by
  rcases List.eq_nil_or_concat after with rfl | ⟨rest, other, rfl⟩
  · obtain ⟨hbefore, hlast⟩ := List.append_inj' h rfl
    exact .inl ⟨(List.cons.inj hlast).1.symm, hbefore.symm, rfl⟩
  · rw [List.concat_eq_append, ← List.cons_append, ← List.append_assoc] at h
    obtain ⟨hcalls, hlast⟩ := List.append_inj' h rfl
    obtain rfl := (List.cons.inj hlast).1
    exact .inr ⟨rest, List.concat_eq_append, hcalls⟩

theorem flushed_flush (calls : List Call) : Flushed (calls ++ [.flush]) := by
  intro before b after h
  rcases eq_of_concat h with ⟨hcall, -⟩ | ⟨rest, rfl, -⟩
  · cases hcall
  · exact List.mem_append_right rest (List.mem_singleton.2 rfl)

/-- A call that is no write leaves nothing behind. -/
theorem Flushed.concat (h : Flushed calls) {last : Call} (hlast : ∀ b, .write b ≠ last) :
    Flushed (calls ++ [last]) := by
  intro before b after hsplit
  -- the write is the last call, which is excluded, or it was there before and has
  -- its flush
  rcases eq_of_concat hsplit with ⟨hcall, -⟩ | ⟨rest, rfl, hcalls⟩
  · exact absurd hcall (hlast b)
  · exact List.mem_append_left _ (h before b rest hcalls)

/-- One more call asks for nothing unless it is a read, and then for what is
there to be flushed. -/
theorem FlushedAtReads.concat (h : FlushedAtReads calls) {last : Call}
    (hlast : .read = last → Flushed calls) : FlushedAtReads (calls ++ [last]) := by
  intro before after hsplit
  rcases eq_of_concat hsplit with ⟨hcall, rfl, -⟩ | ⟨rest, -, hcalls⟩
  · exact hlast hcall
  · exact h before rest hcalls

/-- Writes may follow each other: nothing is owed until the next read. By
induction on the bytes. -/
theorem FlushedAtReads.append_writes (bytes : List UInt8) (h : FlushedAtReads calls) :
    FlushedAtReads (calls ++ bytes.map .write) := by
  induction bytes generalizing calls with
  | nil => rwa [List.map_nil, List.append_nil]
  | cons b bytes ih =>
    rw [List.map_cons, List.append_cons]
    exact ih (h.concat nofun)

/-- Nothing is left behind, and nothing was at any read. -/
structure Settled (r : Recorder κ) : Prop where
  flushed : Flushed r.calls
  atReads : FlushedAtReads r.calls

/-- **Polls, reads and prints leave nothing behind.** A print ends in a
flush, a poll writes nothing, and a read finds everything flushed that came
before it. -/
theorem keeps_settled : Console.Keeps (Settled (κ := κ)) where
  keyReady := fun h => ⟨h.flushed.concat nofun, h.atReads.concat nofun⟩
  readByte? := by
    intro r r' b h hread
    obtain ⟨-, hcalls⟩ := Recorder.readByte?_eq_some_iff.1 hread
    refine ⟨?_, ?_⟩
    · rw [hcalls]
      exact h.flushed.concat nofun
    · rw [hcalls]
      exact h.atReads.concat fun _ => h.flushed
  print := by
    intro r bytes h
    refine ⟨flushed_flush _, ?_⟩
    rw [Recorder.calls_flush, Recorder.calls_writeAll]
    exact (h.atReads.append_writes bytes).concat nofun

omit [Console κ] in
theorem settled_nil (s : κ) : Settled { console := s } :=
  ⟨fun before _ _ h => by simp at h, fun before _ h => by simp at h⟩

/-- A record only grows, so what was true of a read when it took place stays
true. -/
theorem keeps_isPrefix (calls : List Call) :
    Console.Keeps fun r : Recorder κ => calls <+: r.calls where
  keyReady := fun h => h.trans (List.prefix_append _ _)
  readByte? := by
    intro r r' b h hread
    rw [(Recorder.readByte?_eq_some_iff.1 hread).2]
    exact h.trans (List.prefix_append _ _)
  print := by
    intro r bytes h
    rw [Recorder.calls_flush, Recorder.calls_writeAll]
    exact (h.trans (List.prefix_append _ _)).trans (List.prefix_append _ _)

/-- The console inside is the one that is not recorded. -/
def Inside (s : κ) (r : Recorder κ) : Prop := r.console = s

/-- A record asks nothing of the console inside and hides nothing of what it
answers, so no condition is owed to either a poll or a read. -/
theorem alikeWhen_inside :
    Console.AlikeWhen (fun _ => True) (fun _ => True) (Inside (κ := κ)) where
  poll := by
    rintro _ r rfl -
    have hasked : Console.keyReady r = ((Console.keyReady r.console).1,
        ⟨(Console.keyReady r.console).2, r.calls ++ [.poll]⟩) := rfl
    unfold Console.poll
    rw [hasked]
    cases Console.keyReady r.console with
    | mk ready s =>
      cases ready with
      | false => exact ⟨rfl, rfl⟩
      | true =>
        simp only
        cases hread : Console.readByte? s with
        | none =>
          rw [Recorder.readByte?_eq_none_iff.2 hread]
          exact ⟨rfl, rfl⟩
        | some answer =>
          have hkept : Console.readByte? (Recorder.mk s (r.calls ++ [.poll])) =
              some (answer.1, ⟨answer.2, r.calls ++ [.poll] ++ [.read]⟩) :=
            Recorder.readByte?_eq_some_iff.2 ⟨hread, rfl⟩
          rw [hkept]
          exact ⟨rfl, rfl⟩
  read := by
    rintro _ r rfl -
    cases hread : Console.readByte? r.console with
    | none => exact .inl ⟨hread, Recorder.readByte?_eq_none_iff.2 hread⟩
    | some answer =>
      refine .inr ⟨answer.1, answer.2, ⟨answer.2, r.calls ++ [.read]⟩, hread, ?_, rfl⟩
      exact Recorder.readByte?_eq_some_iff.2 ⟨hread, rfl⟩
  writeByte := fun b h => congrArg (Console.writeByte b) h
  flush := fun h => congrArg Console.flush h

/-- Every step answers as it does without the record, and the machines stay
alike. By induction on the number of steps. -/
theorem alike_steps (n : Nat) : ∀ {m : Machine κ} {r : Machine (Recorder κ)},
    Machine.Alike Inside m r →
      m.answers n = r.answers n ∧ Machine.Alike Inside (m.steps n) (r.steps n) := by
  induction n with
  | zero => exact fun h => ⟨rfl, h⟩
  | succ n ih =>
    intro m r h
    obtain ⟨hanswer, hstep⟩ := h.step_when alikeWhen_inside (fun _ => trivial) fun _ _ => trivial
    obtain ⟨hanswers, hsteps⟩ := ih hstep
    exact ⟨List.cons_eq_cons.2 ⟨hanswer, hanswers⟩, hsteps⟩

/-- **Output is handed on before the machine waits or stops.** A machine
takes any number of steps, over any console, and a record of the calls is
kept from the first on. At every read in the record, everything that had been
written before it had been flushed; and so has everything at the end of every
step, whether it is completed, halts the machine, hits a fault or has to wait
for input. The record only grows, and the machine that is recorded does what
it does without. A step that writes a string without end does not return; its
machine is the one before the string. -/
theorem flushed_before_waiting (m : Machine κ) (n : Nat) :
    FlushedAtReads ((recorded m).steps n).console.calls ∧
    Flushed ((recorded m).steps n).console.calls ∧
    ((recorded m).steps n).console.calls <+: ((recorded m).steps (n + 1)).console.calls ∧
    m.answers n = (recorded m).answers n ∧
    Machine.Alike Inside (m.steps n) ((recorded m).steps n) := by
  -- the two machines differ in nothing but that the console is wrapped
  have hstart : Machine.Alike Inside m (recorded m) := ⟨⟨rfl, rfl, rfl⟩, rfl, rfl⟩
  have hsettled := keeps_settled.steps (m := recorded m) (settled_nil m.console) n
  obtain ⟨hanswers, halike⟩ := alike_steps n hstart
  refine ⟨hsettled.atReads, hsettled.flushed, ?_, hanswers, halike⟩
  rw [Machine.steps_succ]
  exact (keeps_isPrefix _).step (List.prefix_refl _)

/-- The record of IN: the prompt is flushed before the read, and the echo
behind it. -/
example : (Trap.prompt.run (κ := Recorder Script)
    { regs := .initial, mem := .zeroed, console := ⟨.ofInput [0x41], []⟩ }).2.console.calls =
    Trap.promptText.map .write ++ [.flush, .read, .write 0x41, .flush] := rfl

end FlushOrder

end LC3
