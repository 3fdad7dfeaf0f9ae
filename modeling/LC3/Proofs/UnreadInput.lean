import LC3.Proofs.InputQueue
import LC3.Proofs.Lockstep

/-!
# Input that is not read has no influence

A step that asks for input sees the first byte that is unread, and no other.
It also sees whether there is one, so a step that asks in vain could tell one
script from another; a run in which none does cannot. It depends on the bytes
it consumes, not on what lies behind them, nor on when that arrives, nor on
what has been written before or is taken away in between.

Both sides of the comparison share the bytes that the run is going to consume
(`Shares`). A step that asks needs one of them to be left, and it is: asking
takes a byte (`input_step_of_asks`), and the run does not go beyond the bytes
that it consumes.

> `run_events`: a run against any events that have as many steps among them;
> `run_ignores_unread`: other input behind the same first bytes, other
> output, and any pushes and takings between the steps.
-/

namespace LC3.UnreadInput

open History

theorem input_poll (c : Core Script) : c.poll.console.input = c.console.input.tail := by
  obtain ⟨regs, mem, ⟨input, output⟩⟩ := c
  cases input <;> rfl

/-- A routine that reads takes the first byte, if there is one. What it
writes before and after is not input. -/
theorem input_run_of_asks {t : Trap} (h : t.Asks) (c : Core Script) :
    (t.run c).2.console.input = c.console.input.tail := by
  obtain ⟨regs, mem, ⟨input, output⟩⟩ := c
  rcases h with rfl | rfl <;> cases input <;> rfl

variable {m : Machine Script}

/-- If the fetch polls nothing else does; if not, the instruction polls once.
Either way one poll decides what is left of the input. -/
theorem input_step_of_poll (h : kbsr ∈ m.reads) :
    m.step.2.console.input = m.console.input.tail := by
  have hrun := Machine.running_of_mem_reads h
  -- the poll is the fetch, or it is an access of the instruction behind it
  by_cases hpc : m.regs.pc = kbsr
  · rw [(Machine.step_of_pc_eq_kbsr hrun hpc).1, Machine.fetched, hpc, Core.read_kbsr]
    exact input_poll m.toCore
  · cases hdecode : m.word.decode with
    | instr i =>
      rw [Machine.reads_of_instr hrun hdecode] at h
      have hexec := (List.mem_cons.1 h).resolve_left (Ne.symm hpc)
      rw [Machine.step_of_instr hrun hdecode]
      refine (congrArg Script.input (m.fetched.console_exec_of_mem hexec)).trans ?_
      rw [input_poll, Machine.console_fetched_of_mem hrun hdecode hexec]
    | trap vector =>
      rw [Machine.reads_of_trap hrun hdecode] at h
      exact absurd (List.mem_singleton.1 h).symm hpc
    | reserved opcode =>
      rw [Machine.reads_of_reserved hrun hdecode] at h
      exact absurd (List.mem_singleton.1 h).symm hpc

/-- **A step that asks takes the first byte**, if there is one. This is why a
step that asks in vain is the only one that could see where the input ends. -/
theorem input_step_of_asks (h : m.Asks) : m.step.2.console.input = m.console.input.tail := by
  rcases h with hpoll | ⟨hrun, vector, t, hdecode, ht, hasks⟩
  · exact input_step_of_poll hpoll
  · rw [Machine.step_of_routine hrun hdecode ht]
    refine (input_run_of_asks hasks _).trans ?_
    rw [(Machine.link_of_trap hdecode).2.1]

/-- A routine that writes before it reads finds the same input. -/
theorem input_of_readsFrom {s : Script} (h : m.ReadsFrom s) :
    m.Asks ∧ s.input = m.console.input := by
  obtain ⟨hrun, vector, t, hdecode, ht, ⟨hgetc, rfl⟩ | ⟨hprompt, rfl⟩⟩ := h
  · exact ⟨.inr ⟨hrun, vector, t, hdecode, ht, .inl hgetc⟩, rfl⟩
  · exact ⟨.inr ⟨hrun, vector, t, hdecode, ht, .inr hprompt⟩, Script.input_writeAll _ _⟩

/-- Steps take input from the front and put none back. -/
theorem input_steps_suffix (n : Nat) (m : Machine Script) :
    (m.steps n).console.input <:+ m.console.input :=
  Machine.keeps_steps (I := fun m' : Machine Script => m'.console.input <:+ m.console.input)
    (fun h => .trans ⟨_, (InputQueue.taken_append _).1.symm⟩ h) List.suffix_rfl n

/-! ## Scripts that have their first bytes in common -/

/-- The scripts share the bytes that come first, up to `rest` in the one and
`rest'` in the other, and they have written the same since their outputs were
`out` and `out'`. -/
structure Shares (rest rest' : List UInt8) (out out' : Array UInt8) (s t : Script) : Prop where
  input : ∃ bytes, s.input = bytes ++ rest ∧ t.input = bytes ++ rest'
  output : ∃ bytes, s.output = out ++ bytes ∧ t.output = out' ++ bytes

/-- Some of the shared bytes are left. -/
def HasMore (rest : List UInt8) (s : Script) : Prop := rest.length < s.input.length

variable {rest rest' : List UInt8} {out out' : Array UInt8} {s t : Script}

/-- As long as shared bytes are left, both scripts begin with the same byte. -/
theorem Shares.exists_cons (h : Shares rest rest' out out' s t) (hmore : HasMore rest s) :
    ∃ b bytes, s.input = b :: (bytes ++ rest) ∧ t.input = b :: (bytes ++ rest') := by
  obtain ⟨bytes, hs, ht⟩ := h.input
  cases bytes with
  | nil =>
    rw [HasMore, hs] at hmore
    exact absurd hmore (Nat.lt_irrefl _)
  | cons b bytes => exact ⟨b, bytes, hs, ht⟩

/-- What is written goes behind what was written before, on both sides. -/
theorem Shares.writeByte (h : Shares rest rest' out out' s t) (b : UInt8) :
    Shares rest rest' out out' (Console.writeByte b s) (Console.writeByte b t) := by
  obtain ⟨bytes, hs, ht⟩ := h.output
  refine ⟨h.input, bytes.push b, ?_, ?_⟩
  · show s.output.push b = _
    rw [hs, Array.append_push]
  · show t.output.push b = _
    rw [ht, Array.append_push]

theorem readByte?_cons {s : Script} {b : UInt8} {input : List UInt8} (h : s.input = b :: input) :
    Console.readByte? s = some (b, { s with input }) :=
  Script.readByte?_eq_some_iff.2 ⟨h, rfl⟩

/-- **Scripts that share their first bytes answer alike while one of these is
left.** Behind them one script may have input where the other has none, so a
poll and a read owe that condition. -/
theorem alikeWhen_shares :
    Console.AlikeWhen (HasMore rest) (HasMore rest) (Shares rest rest' out out') where
  poll := by
    intro s t h hmore
    obtain ⟨b, bytes, hs, ht⟩ := h.exists_cons hmore
    rw [InputQueue.poll_cons hs, InputQueue.poll_cons ht]
    exact ⟨rfl, ⟨bytes, rfl, rfl⟩, h.output⟩
  read := by
    intro s t h hmore
    obtain ⟨b, bytes, hs, ht⟩ := h.exists_cons hmore
    exact .inr ⟨b, _, _, readByte?_cons hs, readByte?_cons ht, ⟨bytes, rfl, rfl⟩, h.output⟩
  writeByte := fun b h => h.writeByte b
  flush := id

/-! ## Runs -/

/-- What may happen to a machine from outside. -/
inductive Event where
  | step
  | push (bytes : List UInt8)
  | takeOutput
  deriving DecidableEq

/-- The machine after one event. -/
def Event.apply (m : Machine Script) : Event → Machine Script
  | .step => m.step.2
  | .push bytes => { m with console := m.console.push bytes }
  | .takeOutput => { m with console := m.console.takeOutput.2 }

/-- What an event answers, if it is a step. -/
def Event.answer (m : Machine Script) : Event → List Outcome
  | .step => [m.step.1]
  | .push _ | .takeOutput => []

/-- The bytes that an event brings. -/
def Event.brings : Event → List UInt8
  | .push bytes => bytes
  | .step | .takeOutput => []

/-- The output that an event takes away. -/
def Event.takesAway (m : Machine Script) : Event → List UInt8
  | .takeOutput => m.console.takeOutput.1.toList
  | .step | .push _ => []

/-- What the steps among the events answer, in order. -/
def answers (m : Machine Script) (events : List Event) : List Outcome :=
  collected Event.apply Event.answer m events

/-- The output that the events take away, in order. -/
def takenAway (m : Machine Script) (events : List Event) : Array UInt8 :=
  (collected Event.apply Event.takesAway m events).toArray

/-- The bytes that the events bring, in order. -/
def pushed (events : List Event) : List UInt8 := events.flatMap Event.brings

/-- The same machine with other input to read and with other output written. -/
def given (m : Machine Script) (input : List UInt8) (output : Array UInt8) : Machine Script :=
  { m with console := ⟨input, output⟩ }

/-- The machines are the same but for their scripts, and these share the
bytes up to `rest` in the one and `rest'` in the other. -/
structure Ahead (rest rest' : List UInt8) (m m' : Machine Script) : Prop where
  input : ∃ bytes, m.console.input = bytes ++ rest ∧ m'.console.input = bytes ++ rest'
  rest : m' = given m m'.console.input m'.console.output

theorem Ahead.alike {m m' : Machine Script} (h : Ahead rest rest' m m') :
    Machine.Alike (Shares rest rest' m.console.output m'.console.output) m m' := by
  have hsame := h.rest
  refine ⟨⟨?_, ?_, h.input, #[], (Array.append_empty).symm, (Array.append_empty).symm⟩, ?_, ?_⟩ <;>
    rw [hsame] <;> rfl

/-- What has been written since is dropped, and what is left is that the rest
is the same. -/
theorem ahead_of_alike {m m' : Machine Script}
    (h : Machine.Alike (Shares rest rest' out out') m m') : Ahead rest rest' m m' := by
  obtain ⟨⟨regs, mem, s⟩, status, ignore⟩ := m
  obtain ⟨⟨regs', mem', t⟩, status', ignore'⟩ := m'
  obtain ⟨⟨rfl, rfl, hconsole⟩, rfl, rfl⟩ := h
  exact ⟨hconsole.input, rfl⟩

/-- The step in front of `n` more, when the run ends with `rest` unread: if
it asks, there is a shared byte left for it. -/
theorem hasMore_of_asks {n : Nat} (hrest : rest.length ≤ (m.steps (n + 1)).console.input.length)
    (hne : m.Asks → m.console.input ≠ []) (hasks : m.Asks) : HasMore rest m.console := by
  have hlater := (input_steps_suffix n m.step.2).length_le
  rw [input_step_of_asks hasks, List.length_tail] at hlater
  have hpos := List.length_pos_iff.2 (hne hasks)
  have hsteps : rest.length ≤ (m.step.2.steps n).console.input.length := hrest
  unfold HasMore
  omega

/-- **A run against events.** The first machine takes as many steps as there
are among the events; in none of them it asks in vain, and it leaves at least
`rest` unread. -/
theorem run_events (events : List Event) : ∀ {m m' : Machine Script} {rest' : List UInt8},
    Ahead rest rest' m m' →
    (∀ i < events.count .step, (m.steps i).Asks → (m.steps i).console.input ≠ []) →
    rest.length ≤ (m.steps (events.count .step)).console.input.length →
    answers m' events = m.answers (events.count .step) ∧
      Ahead rest (rest' ++ pushed events) (m.steps (events.count .step))
        (after Event.apply m' events) ∧
      ∃ bytes, (m.steps (events.count .step)).console.output = m.console.output ++ bytes ∧
        takenAway m' events ++ (after Event.apply m' events).console.output =
          m'.console.output ++ bytes := by
  induction events with
  | nil =>
    intro m m' rest' h _ _
    refine ⟨rfl, ?_, #[], Array.append_empty.symm, ?_⟩
    · rw [pushed, List.flatMap_nil, List.append_nil]
      exact h
    · exact Array.empty_append.trans Array.append_empty.symm
  | cons event events ih =>
    intro m m' rest' h hasks hrest
    cases event with
    | step =>
      rw [List.count_cons_self] at hasks hrest ⊢
      -- the first step asks in front of a shared byte, if it asks at all
      have hmore := hasMore_of_asks hrest (hasks 0 (Nat.zero_lt_succ _))
      obtain ⟨hanswer, hstep⟩ := h.alike.step_when alikeWhen_shares
        (fun hpoll => hmore (.inl hpoll))
        fun s hs => by
          obtain ⟨hask, hinput⟩ := input_of_readsFrom hs
          rw [HasMore, hinput]
          exact hmore hask
      obtain ⟨xs, hm, hm'⟩ := hstep.console.output
      obtain ⟨hanswers, hafter, ys, hsteps, htotal⟩ := ih (ahead_of_alike hstep)
        (fun i hi => hasks (i + 1) (Nat.succ_lt_succ hi)) hrest
      refine ⟨List.cons_eq_cons.2 ⟨hanswer.symm, hanswers⟩, hafter, xs ++ ys, ?_, ?_⟩
      · refine hsteps.trans ?_
        rw [hm, Array.append_assoc]
      · refine htotal.trans ?_
        rw [hm', Array.append_assoc]
    | push bytes =>
      have hne : Event.push bytes ≠ .step := fun h => nomatch h
      rw [List.count_cons_of_ne hne] at hasks hrest ⊢
      -- what arrives lies behind the rest of the second script
      have hpush : Ahead rest (rest' ++ bytes) m (Event.apply m' (.push bytes)) := by
        obtain ⟨shared, hm, hm'⟩ := h.input
        refine ⟨⟨shared, hm, ?_⟩, ?_⟩
        · show m'.console.input ++ bytes = _
          rw [hm', List.append_assoc]
        · rw [h.rest]
          rfl
      obtain ⟨hanswers, hafter, houtput⟩ := ih hpush hasks hrest
      rw [List.append_assoc] at hafter
      exact ⟨hanswers, hafter, houtput⟩
    | takeOutput =>
      have hne : Event.takeOutput ≠ .step := fun h => nomatch h
      rw [List.count_cons_of_ne hne] at hasks hrest ⊢
      -- the output that is taken away is counted as taken, and the machine does not
      -- look at it
      have htake : Ahead rest rest' m (Event.apply m' .takeOutput) := by
        refine ⟨h.input, ?_⟩
        rw [h.rest]
        rfl
      obtain ⟨hanswers, hafter, bytes, hsteps, htotal⟩ := ih htake hasks hrest
      refine ⟨hanswers, hafter, bytes, hsteps, ?_⟩
      have htaken : takenAway m' (.takeOutput :: events) =
          m'.console.output ++ takenAway (Event.apply m' .takeOutput) events := by
        rw [takenAway, collected, ← List.append_toArray]
        rfl
      rw [htaken, Array.append_assoc]
      exact congrArg (m'.console.output ++ ·) (htotal.trans Array.empty_append)

/-- Steps with nothing between them are events. -/
theorem replicate_step (n : Nat) : ∀ m : Machine Script,
    answers m (List.replicate n .step) = m.answers n ∧
      after Event.apply m (List.replicate n .step) = m.steps n ∧
      takenAway m (List.replicate n .step) = #[] ∧ pushed (List.replicate n .step) = [] := by
  induction n with
  | zero => exact fun _ => ⟨rfl, rfl, rfl, rfl⟩
  | succ n ih =>
    intro m
    obtain ⟨hanswers, hafter, htaken, hpushed⟩ := ih m.step.2
    exact ⟨congrArg (m.step.1 :: ·) hanswers, hafter, htaken, hpushed⟩

/-- The events bring `m'` where `n` steps bring `m`: with the same answers
and to the same state, with `rest` and what the events bring unread, and with
the bytes `written` behind the output that was there, wherever these bytes
are by now. -/
structure Follows (m : Machine Script) (n : Nat) (written : Array UInt8) (rest : List UInt8)
    (m' : Machine Script) (events : List Event) : Prop where
  answers : answers m' events = m.answers n
  state : after Event.apply m' events =
    given (m.steps n) (rest ++ pushed events) (after Event.apply m' events).console.output
  output : takenAway m' events ++ (after Event.apply m' events).console.output =
    m'.console.output ++ written

/-- **Input that is not read and output already written have no influence.**
If none of `n` steps asks for input in vain, they depend on the bytes that
they consume alone. With any other input behind these bytes and any other
output, the answers are the same, and the machine comes to the same state,
with the other input unread and the same bytes written behind the other
output; and nothing of this changes if more input arrives between the steps,
or output is taken away. -/
theorem run_ignores_unread (m : Machine Script) (n : Nat)
    (hasks : ∀ i < n, (m.steps i).Asks → (m.steps i).console.input ≠ []) :
    ∃ (consumed : List UInt8) (written : Array UInt8),
      m.console.input = consumed ++ (m.steps n).console.input ∧
      (m.steps n).console.output = m.console.output ++ written ∧
      ∀ (rest : List UInt8) (out : Array UInt8),
        (given m (consumed ++ rest) out).answers n = m.answers n ∧
        (given m (consumed ++ rest) out).steps n = given (m.steps n) rest (out ++ written) ∧
        ∀ events : List Event, events.count .step = n →
          Follows m n written rest (given m (consumed ++ rest) out) events := by
  obtain ⟨consumed, hconsumed⟩ := input_steps_suffix n m
  have hahead : ∀ rest out, Ahead (m.steps n).console.input rest m
      (given m (consumed ++ rest) out) :=
    fun rest out => ⟨⟨consumed, hconsumed.symm, rfl⟩, rfl⟩
  have hcount : (List.replicate n Event.step).count .step = n := List.count_replicate_self
  have hrun := fun rest out events (h : List.count Event.step events = n) =>
    run_events events (hahead rest out) (h ▸ hasks) (h ▸ Nat.le_refl _)
  -- the bytes that are written are those of the run itself, so they are the same for all others
  obtain ⟨-, -, written, hwritten, -⟩ := hrun [] #[] (List.replicate n .step) hcount
  rw [hcount] at hwritten
  refine ⟨consumed, written, hconsumed.symm, hwritten, ?_⟩
  intro rest out
  have hfollows : ∀ events : List Event, events.count .step = n →
      Follows m n written rest (given m (consumed ++ rest) out) events := by
    intro events hn
    obtain ⟨hanswers, hafter, bytes, hbytes, htotal⟩ := hrun rest out events hn
    rw [hn] at hanswers hafter hbytes
    obtain rfl : written = bytes := (Array.append_right_inj _).1 (hwritten.symm.trans hbytes)
    refine ⟨hanswers, hafter.rest.trans ?_, htotal⟩
    -- the run ends where its own unread input begins, so no shared byte is left
    obtain ⟨shared, hshared, hinput⟩ := hafter.input
    obtain rfl : shared = [] := List.append_left_eq_self.1 hshared.symm
    rw [hinput]
    rfl
  -- steps with nothing between them are the case that the first two statements are
  -- about
  obtain ⟨hanswers, hafter, htaken, hpushed⟩ := replicate_step n (given m (consumed ++ rest) out)
  have hsteps := hfollows (List.replicate n .step) hcount
  have houtput := hsteps.output
  have hstate := hsteps.state
  rw [hafter, htaken, Array.empty_append] at houtput
  rw [hafter, hpushed, List.append_nil, houtput] at hstate
  exact ⟨hanswers.symm.trans hsteps.answers, hstate, hfollows⟩

/-- GETC with two bytes to read. -/
def reading : Machine Script := .about 0x3000 0xF020 (.ofInput [0x41, 0x42])

/-- The second byte is not read, so another one in its place changes nothing,
though it comes late and the output that was there is gone by then. -/
theorem run_ignores_unread_reading :
    (given reading [0x41] #[0x21]).answers 1 = reading.answers 1 ∧
    (given reading [0x41] #[0x21]).steps 1 = given (reading.steps 1) [] #[0x21] ∧
    after Event.apply (given reading [0x41] #[0x21]) [.takeOutput, .push [0x43], .step] =
      given (reading.steps 1) [0x43] #[] := by
  have hdecode : reading.word.decode = .trap 0x20 := by
    rw [reading, Machine.word_about (by decide)]
    decide
  have hstep := Machine.step_of_routine (m := reading) (t := .getc) rfl hdecode rfl
  have hfetched : reading.fetched = reading.toCore.jump 0x3001 :=
    (Machine.word_of_pc_ne (m := reading) (by decide)).2
  have hconsole : (reading.steps 1).console = ⟨[0x42], #[]⟩ := by
    rw [Machine.steps, Machine.steps, hstep, hfetched]
    rfl
  have hasks : ∀ i < 1, (reading.steps i).Asks → (reading.steps i).console.input ≠ [] := by
    intro i hi _
    obtain rfl : i = 0 := Nat.lt_one_iff.1 hi
    exact List.cons_ne_nil _ _
  obtain ⟨consumed, written, hconsumed, hwritten, hall⟩ := run_ignores_unread reading 1 hasks
  rw [hconsole] at hconsumed hwritten
  have hinput : reading.console = ⟨[0x41] ++ [0x42], #[]⟩ := rfl
  rw [hinput] at hconsumed hwritten
  obtain rfl : [0x41] = consumed := List.append_cancel_right hconsumed
  obtain rfl : #[] = written := hwritten.trans Array.empty_append
  have hothers := hall [] #[0x21]
  rw [List.append_nil, Array.append_empty] at hothers
  obtain ⟨hanswers, hsteps, hevents⟩ := hothers
  have hfollows := hevents [.takeOutput, .push [0x43], .step] (by decide)
  have hpushed : pushed [.takeOutput, .push [0x43], .step] = [0x43] := rfl
  have htaken : takenAway (given reading [0x41] #[0x21]) [.takeOutput, .push [0x43], .step] =
      #[0x21] := rfl
  have houtput := hfollows.output
  have hstate := hfollows.state
  rw [htaken] at houtput
  rw [hpushed, List.nil_append, (Array.append_right_inj _).1 houtput] at hstate
  exact ⟨hanswers, hsteps, hstate⟩

end LC3.UnreadInput
