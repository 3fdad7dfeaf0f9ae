import LC3.Console.Script
import LC3.Panel
import LC3.Proofs.Routines

/-!
# The end is final

A step that answers `halted` or a fault is the last one that does anything.
What a user does to the machine after it, moving the program counter, loading
another program or changing what unknown traps do, cannot set it going again:
the status is none of the things that a user can write, and a step looks at
the status before it fetches. So the invariant is the status alone
(`status_of_does`), and it is what the answer says (`status_of_answer`).

> `runsTo_iff_run`: the runs of a user are the runs of `Machine.run`, without
> a limit;
> `haltsBy_of_does`: the status `halted` comes from a call of the halting
> routine only;
> `reaches_machine_iff`: a machine with a panel does request by request what
> its machine does;
> `end_is_final`: under any requests from the start, the first end is kept,
> machine and all, and no panel ever shows both ends.
-/

namespace LC3.Finality

variable {κ : Type} [Console κ]

/-- A run that ends before its limit is a run of the user. By induction on
the limit. -/
theorem runsTo_of_runFrom (limit : Nat) : ∀ {m : Machine κ} (i : Nat),
    (m.runFrom i limit).outcome ≠ .running →
    Machine.handle.RunsTo m (m.runFrom i limit).outcome (m.runFrom i limit).machine := by
  induction limit with
  | zero => exact fun i hne => absurd rfl hne
  | succ limit ih =>
    intro m i hne
    by_cases hstep : m.step.1 = .running
    · rw [Machine.runFrom_succ_of_running i limit hstep] at hne ⊢
      exact .go hstep (ih (i + 1) hne)
    · rw [Machine.runFrom_succ_of_ne i limit hstep]
      exact .stop hstep

/-- And the other way round, one step of the limit for each step of the run. -/
theorem runFrom_of_runsTo {m m' : Machine κ} {o : Outcome} (h : Machine.handle.RunsTo m o m') :
    o ≠ .running ∧ ∃ limit, ∀ i,
      (m.runFrom i limit).outcome = o ∧ (m.runFrom i limit).machine = m' := by
  induction h with
  | @stop m hne =>
    refine ⟨hne, 1, ?_⟩
    intro i
    rw [Machine.runFrom_succ_of_ne i 0 hne]
    exact ⟨rfl, rfl⟩
  | @go m m' o hstep _ ih =>
    obtain ⟨hne, limit, hlimit⟩ := ih
    refine ⟨hne, limit + 1, ?_⟩
    intro i
    rw [Machine.runFrom_succ_of_running i limit hstep]
    exact hlimit (i + 1)

/-- **A run of the user is a run with a limit that it does not reach.** The
limit belongs to the model of a run; a user has none. -/
theorem runsTo_iff_run {m m' : Machine κ} {o : Outcome} :
    Machine.handle.RunsTo m o m' ↔
      o ≠ .running ∧ ∃ limit, (m.run limit).outcome = o ∧ (m.run limit).machine = m' := by
  constructor
  · intro h
    obtain ⟨hne, limit, hlimit⟩ := runFrom_of_runsTo h
    exact ⟨hne, limit, hlimit 0⟩
  · rintro ⟨hne, limit, rfl, rfl⟩
    exact runsTo_of_runFrom limit 0 hne

/-- A run is steps that answer `running` and one more that does not. -/
theorem exists_steps_of_runsTo {m m' : Machine κ} {o : Outcome}
    (h : Machine.handle.RunsTo m o m') :
    ∃ k, (∀ i < k, (m.steps i).step.1 = .running) ∧ (m.steps k).step.1 = o ∧
      m' = m.steps (k + 1) := by
  induction h with
  | @stop m hne => exact ⟨0, fun i hi => absurd hi (Nat.not_lt_zero i), rfl, rfl⟩
  | @go m m' o hstep _ ih =>
    obtain ⟨k, hrunning, hlast, hleft⟩ := ih
    refine ⟨k + 1, ?_, hlast, hleft⟩
    intro i hi
    cases i with
    | zero => exact hstep
    | succ i => exact hrunning i (Nat.lt_of_succ_lt_succ hi)

/-- The answers that end a machine. -/
def IsEnd (o : Outcome) : Prop := o = .halted ∨ ∃ f, o = .fault f

theorem step_of_isEnd {m : Machine κ} {o : Outcome} (ho : IsEnd o) (hm : m.status = .ofOutcome o) :
    m.step = (o, m) := by
  obtain rfl | ⟨f, rfl⟩ := ho
  · exact Machine.step_of_halted hm
  · exact Machine.step_of_faulted hm

theorem IsEnd.ne_running {o : Outcome} (ho : IsEnd o) : o ≠ .running := by
  obtain rfl | ⟨f, rfl⟩ := ho
  · nofun
  · nofun

/-- A run of a machine that has ended has one outcome, and it comes at once.
It takes one step, which changes nothing. -/
theorem runsTo_of_isEnd {m : Machine κ} {o : Outcome} (ho : IsEnd o)
    (hm : m.status = .ofOutcome o) {o' : Outcome} {m' : Machine κ} :
    Machine.handle.RunsTo m o' m' ↔ o' = o ∧ m' = m := by
  have hstep : Machine.handle.step m = (o, m) := step_of_isEnd ho hm
  constructor
  · intro h
    cases h with
    | stop hne =>
      rw [hstep]
      exact ⟨rfl, rfl⟩
    | go hrunning _ =>
      rw [hstep] at hrunning
      exact absurd hrunning ho.ne_running
  · rintro ⟨rfl, rfl⟩
    have hstop := Handle.RunsTo.stop (H := Machine.handle) (s := m')
    rw [hstep] at hstop
    exact hstop ho.ne_running

/-- The last step of a run decides what its machine is from then on. -/
theorem status_of_runsTo {m m' : Machine κ} {o : Outcome} (h : Machine.handle.RunsTo m o m') :
    m'.status = .ofOutcome o := by
  induction h with
  | @stop m _ => exact m.status_step
  | go _ _ ih => exact ih

/-- What a request answers is what its machine is from then on. -/
theorem status_of_answer {m m' : Machine κ} {request : Request κ} {o : Outcome}
    (h : Machine.handle.Does m request (some o) m') : m'.status = .ofOutcome o := by
  cases h with
  | step => exact m.status_step
  | run h => exact status_of_runsTo h

/-- **No request changes the status of a machine that has ended.** A user may
write registers, memory and setting, but the status is no part of these. -/
theorem status_of_does {m m' : Machine κ} {o : Outcome} (ho : IsEnd o)
    (hm : m.status = .ofOutcome o) {request : Request κ} {answer : Option Outcome}
    (h : Machine.handle.Does m request answer m') : m'.status = .ofOutcome o := by
  cases h with
  | step =>
    show m.step.2.status = _
    rw [step_of_isEnd ho hm]
    exact hm
  | run h =>
    obtain ⟨-, rfl⟩ := (runsTo_of_isEnd ho hm).1 h
    exact hm
  | edit | registers | ignoreUnknownTraps => exact hm

theorem status_of_reaches {m m' : Machine κ} {o : Outcome} (ho : IsEnd o)
    (hm : m.status = .ofOutcome o) (h : Machine.handle.Reaches m m') :
    m'.status = .ofOutcome o := by
  induction h with
  | refl => exact hm
  | next _ h ih => exact status_of_does ho ih h

/-- From now on every step and every run answers `o`, whatever is done
between them, and leaves the machine as it finds it. -/
def Final (o : Outcome) (m : Machine κ) : Prop :=
  ∀ m', Machine.handle.Reaches m m' →
    m'.step = (o, m') ∧ ∀ o' m'', Machine.handle.RunsTo m' o' m'' ↔ o' = o ∧ m'' = m'

/-- **The first end is kept.** The answer decides the status, no request
changes it, and a step looks at nothing else. -/
theorem final_of_answer {m m' : Machine κ} {request : Request κ} {o : Outcome}
    (h : Machine.handle.Does m request (some o) m') (ho : IsEnd o) : Final o m' := by
  intro m'' hreaches
  have hstatus := status_of_reaches ho (status_of_answer h) hreaches
  exact ⟨step_of_isEnd ho hstatus, fun _ _ => runsTo_of_isEnd ho hstatus⟩

/-! ## Halting -/

/-- The request was a step or a run, and the last thing it did was to carry
out a call of the halting routine. -/
def HaltsBy (m : Machine κ) (request : Request κ) (m' : Machine κ) : Prop :=
  ∃ k, (request = .run ∨ request = .step ∧ k = 0) ∧ (∀ i < k, (m.steps i).step.1 = .running) ∧
    (m.steps k).status = .running ∧ (m.steps k).word.opcode = 15 ∧
    (m.steps k).word.lowByte = 0x25 ∧ m' = m.steps (k + 1)

/-- A machine that has not halted, and does so by the last of some steps, was
running before it. -/
theorem running_of_halts {m : Machine κ} {k : Nat} (hm : m.status ≠ .halted)
    (hrunning : ∀ i < k, (m.steps i).step.1 = .running) (hhalts : (m.steps k).step.1 = .halted) :
    (m.steps k).status = .running := by
  cases k with
  | zero =>
    cases hstatus : m.status with
    | running => exact hstatus
    | halted => exact absurd hstatus hm
    | faulted f =>
      rw [Machine.steps, Machine.step_of_faulted hstatus] at hhalts
      cases hhalts
  | succ k =>
    rw [Machine.steps_succ, Machine.status_step, hrunning k (Nat.lt_succ_self k)]
    rfl

/-- **Only a call of the halting routine halts a machine.** The request must
have been a step or a run, and its last step found the machine still running. -/
theorem haltsBy_of_does {m m' : Machine κ} {request : Request κ} {answer : Option Outcome}
    (h : Machine.handle.Does m request answer m') (hm : m.status ≠ .halted)
    (hm' : m'.status = .halted) : HaltsBy m request m' := by
  -- a step and a run both end in a last step, and it is the one that has halted the
  -- machine
  have hcall : ∀ k, (∀ i < k, (m.steps i).step.1 = .running) → m' = m.steps (k + 1) →
      (m.steps k).status = .running ∧ (m.steps k).word.opcode = 15 ∧
        (m.steps k).word.lowByte = 0x25 := by
    intro k hrunning hleft
    have hhalts : (m.steps k).step.1 = .halted := by
      rw [hleft, Machine.steps_succ, Machine.status_step] at hm'
      cases hanswer : (m.steps k).step.1 with
      | halted => rfl
      | running | fault | starved | endless => rw [hanswer] at hm'; cases hm'
    have hrun := running_of_halts hm hrunning hhalts
    exact ⟨hrun, (Machine.step_eq_halted_iff hrun).1 hhalts⟩
  cases h with
  | step =>
    have hnone : ∀ i < 0, (m.steps i).step.1 = .running := fun i hi => absurd hi (Nat.not_lt_zero i)
    obtain ⟨hrun, hopcode, hvector⟩ := hcall 0 hnone rfl
    exact ⟨0, .inr ⟨rfl, rfl⟩, hnone, hrun, hopcode, hvector, rfl⟩
  | run h =>
    obtain ⟨k, hrunning, -, hleft⟩ := exists_steps_of_runsTo h
    obtain ⟨hrun, hopcode, hvector⟩ := hcall k hrunning hleft
    exact ⟨k, .inl rfl, hrunning, hrun, hopcode, hvector, hleft⟩
  | edit | registers | ignoreUnknownTraps => exact absurd hm' hm

/-! ## Panels -/

/-- The light is off while there is a fault. -/
def OneEnd (p : Panel κ) : Prop := p.fault ≠ none → p.halted = false

/-- A call leaves a fault or turns the light on, and never does both. -/
theorem oneEnd_callTrap {core : Core κ} {ignore : Bool} (vector : UInt8) (addr : Word) :
    OneEnd (Panel.callTrap ⟨core, false, none, ignore⟩ vector addr).2 := by
  unfold Panel.callTrap
  cases Trap.ofVector? vector with
  | none =>
    cases ignore with
    | true => exact fun _ => rfl
    | false => exact fun _ => rfl
  | some t =>
    simp only
    cases t.run core.link with
    | mk e d =>
      cases e with
      | halt => exact fun hfault => absurd rfl hfault
      | resume | starved | endless => exact fun _ => rfl

/-- A step that turns the light on has found no fault, and one that hits a
fault has found it off. -/
theorem oneEnd_step {p : Panel κ} (h : OneEnd p) : OneEnd p.step.2 := by
  -- a panel that shows an end already is not changed by a step
  obtain ⟨core, halted, fault, ignore⟩ := p
  cases fault with
  | some f => exact h
  | none =>
    cases halted with
    | true => exact h
    | false =>
      simp only [Panel.step, if_neg Bool.false_ne_true]
      cases core.fetch with
      | mk w d =>
        cases w.decode with
        | instr i => exact fun _ => rfl
        | trap vector => exact oneEnd_callTrap vector _
        | reserved opcode => exact fun _ => rfl

theorem oneEnd_runsTo {p q : Panel κ} {o : Outcome} (h : Panel.handle.RunsTo p o q)
    (hp : OneEnd p) : OneEnd q := by
  induction h with
  | stop _ => exact oneEnd_step hp
  | go _ _ ih => exact ih (oneEnd_step hp)

/-- The invariant of the two entries: a request that is no step and no run
touches neither. -/
theorem oneEnd_reaches {p q : Panel κ} (h : Panel.handle.Reaches p q) (hp : OneEnd p) :
    OneEnd q := by
  induction h with
  | refl => exact hp
  | next _ h ih =>
    cases h with
    | step => exact oneEnd_step ih
    | run h => exact oneEnd_runsTo h ih
    | edit | registers | ignoreUnknownTraps => exact ih

/-- The step of a panel is the step of its machine, as a handle has it. -/
theorem step_machine (p : Panel κ) :
    Machine.handle.step p.machine = (p.step.1, p.step.2.machine) := p.machine_step

theorem runsTo_machine {p q : Panel κ} {o : Outcome} (h : Panel.handle.RunsTo p o q) :
    Machine.handle.RunsTo p.machine o q.machine := by
  induction h with
  | @stop p hne =>
    have hstop := Handle.RunsTo.stop (H := Machine.handle) (s := p.machine)
    rw [step_machine] at hstop
    exact hstop hne
  | @go p q o hrunning _ ih =>
    have hgo := Handle.RunsTo.go (H := Machine.handle) (s := p.machine) (t := q.machine) (o := o)
    rw [step_machine] at hgo
    exact hgo hrunning ih

/-- Every run of the machine is one of the panel, for a step of the machine
has its panel. -/
theorem exists_runsTo_panel {m m' : Machine κ} {o : Outcome} (h : Machine.handle.RunsTo m o m') :
    ∀ p : Panel κ, p.machine = m → ∃ q, Panel.handle.RunsTo p o q ∧ q.machine = m' := by
  induction h with
  | @stop m hne =>
    rintro p rfl
    rw [step_machine] at hne ⊢
    exact ⟨p.step.2, .stop hne, rfl⟩
  | @go m m' o hrunning _ ih =>
    rintro p rfl
    rw [step_machine] at hrunning ih
    obtain ⟨q, hruns, hq⟩ := ih p.step.2 rfl
    exact ⟨q, .go hrunning hruns, hq⟩

/-- A request has the same answers at the panel and at its machine. -/
theorem does_machine_iff {p : Panel κ} {request : Request κ} {answer : Option Outcome}
    {m : Machine κ} :
    Machine.handle.Does p.machine request answer m ↔
      ∃ q, Panel.handle.Does p request answer q ∧ q.machine = m := by
  constructor
  · intro h
    cases h with
    | step =>
      rw [step_machine]
      exact ⟨p.step.2, .step, rfl⟩
    | run h =>
      obtain ⟨q, hruns, hq⟩ := exists_runsTo_panel h p rfl
      exact ⟨q, .run hruns, hq⟩
    | edit e => exact ⟨_, .edit e, rfl⟩
    | registers change => exact ⟨_, .registers change, rfl⟩
    | ignoreUnknownTraps setting => exact ⟨_, .ignoreUnknownTraps setting, rfl⟩
  · rintro ⟨q, h, rfl⟩
    cases h with
    | step =>
      have hdoes := Handle.Does.step (H := Machine.handle) (s := p.machine)
      rw [step_machine] at hdoes
      exact hdoes
    | run h => exact .run (runsTo_machine h)
    | edit e => exact .edit e
    | registers change => exact .registers change
    | ignoreUnknownTraps setting => exact .ignoreUnknownTraps setting

/-- **A panel goes where its machine goes.** By induction on the requests in
both directions, a request at a time. -/
theorem reaches_machine_iff {p : Panel κ} {m : Machine κ} :
    Machine.handle.Reaches p.machine m ↔ ∃ q, Panel.handle.Reaches p q ∧ q.machine = m := by
  constructor
  · intro h
    induction h with
    | refl => exact ⟨p, .refl, rfl⟩
    | next _ h ih =>
      obtain ⟨q, hreaches, rfl⟩ := ih
      obtain ⟨r, hdoes, hr⟩ := does_machine_iff.1 h
      exact ⟨r, .next hreaches hdoes, hr⟩
  · rintro ⟨q, h, rfl⟩
    induction h with
    | refl => exact .refl
    | next _ h ih => exact .next ih (does_machine_iff.2 ⟨_, h, rfl⟩)

/-! ## The end -/

/-- **The end is final.** Whatever a user does with a machine from its start
on: the first step or run that answers `halted` or a fault is followed by
none that answers anything else or changes anything; a machine comes to be
halted by a call of the halting routine and in no other way; and if the
machine keeps its end in two entries, they never show two ends at once. -/
theorem end_is_final (console : κ) :
    (∀ m request o m', Machine.handle.Reaches (.initial console) m →
      Machine.handle.Does m request (some o) m' → IsEnd o → Final o m') ∧
    (∀ m request answer m', Machine.handle.Reaches (.initial console) m →
      Machine.handle.Does m request answer m' → m.status ≠ .halted → m'.status = .halted →
      HaltsBy m request m') ∧
    (∀ p : Panel κ, p.machine.step = (p.step.1, p.step.2.machine)) ∧
    (∀ m, Machine.handle.Reaches (.initial console) m ↔
      ∃ p, Panel.handle.Reaches (.initial console) p ∧ p.machine = m) ∧
    ∀ p, Panel.handle.Reaches (.initial console) p → p.fault ≠ none → p.halted = false := by
  refine ⟨?_, ?_, Panel.machine_step, ?_, ?_⟩
  · intro m request o m' _ hdoes ho
    exact final_of_answer hdoes ho
  · intro m request answer m' _ hdoes hm hm'
    exact haltsBy_of_does hdoes hm hm'
  · intro m
    exact reaches_machine_iff (p := .initial console)
  · intro p hreaches
    exact oneEnd_reaches hreaches fun hfault => absurd rfl hfault

/-- HALT at the first address of a program. -/
def halting : Machine Script := .about 0x3000 0xF025 {}

/-- A machine taken back to where a program starts, with another word there
and a byte to read. -/
def rewind (m : Machine Script) : Machine Script :=
  { m with
    regs := { m.regs with pc := 0x3000 }
    mem := m.mem.write 0x3000 0xF020
    console := m.console.push [0x41] }

theorem reaches_rewind (m : Machine Script) : Machine.handle.Reaches m (rewind m) :=
  .next (.next (.next .refl (.registers fun regs => { regs with pc := 0x3000 }))
    (.edit (.write 0x3000 0xF020))) (.edit (.console fun s : Script => s.push [0x41]))

/-- Taken back after its halt, which a call has brought about, the machine
does not read the byte. -/
theorem end_is_final_halting :
    Machine.handle.Reaches (.initial {}) halting ∧
    Machine.handle.Does halting .step (some .halted) halting.step.2 ∧
    HaltsBy halting .step halting.step.2 ∧
    (rewind halting.step.2).step = (.halted, rewind halting.step.2) ∧
    ∀ o m, Machine.handle.RunsTo (rewind halting.step.2) o m ↔
      o = .halted ∧ m = rewind halting.step.2 := by
  have hreaches : Machine.handle.Reaches (.initial ({} : Script)) halting :=
    .next .refl (.edit (.write 0x3000 0xF025))
  have hhalted : halting.step.1 = .halted := by
    rw [Machine.step_eq_halted_iff rfl, halting, Machine.word_about (by decide)]
    decide
  have hdoes : Machine.handle.Does halting .step (some .halted) halting.step.2 := by
    have h := Handle.Does.step (H := Machine.handle) (s := halting)
    have hanswer : (Machine.handle.step halting).1 = .halted := hhalted
    rw [hanswer] at h
    exact h
  have hrunning : halting.status ≠ .halted := nofun
  have hstatus : halting.step.2.status = .halted := by
    rw [Machine.status_step, hhalted]
    rfl
  obtain ⟨hfinal, hhaltsBy, -⟩ := end_is_final ({} : Script)
  exact ⟨hreaches, hdoes, hhaltsBy _ _ _ _ hreaches hdoes hrunning hstatus,
    hfinal _ _ _ _ hreaches hdoes (.inl rfl) _ (reaches_rewind _)⟩

end LC3.Finality
