import LC3.Console.Script
import LC3.Proofs.Step

/-!
# The two ways to take an unknown trap

At a trap call that has no routine a machine either stops or goes on behind
it. The setting that decides this is looked at there and nowhere else, and by
then the link is kept and the program counter has moved, so the two ways
differ in the answer and in the status that comes of it, not in the core.

> `agree_step`: away from such a call a step does the same under either
> setting;
> `part_of_callsUnknown`: what the two machines do at one;
> `settings_part`: machines that differ in the setting go alike up to the
> first such call, and part there; and the one that ignores unknown traps
> never reports one.
-/

namespace LC3.UnknownTraps

variable {κ : Type} [Console κ]

/-- The next step calls a trap from `addr` that has no routine. -/
structure CallsUnknown (m : Machine κ) (vector : UInt8) (addr : Word) : Prop where
  running : m.status = .running
  pc : m.regs.pc = addr
  opcode : m.word.opcode = 15
  lowByte : m.word.lowByte = vector
  outside : vector < 0x20 ∨ 0x25 < vector

omit [Console κ] in
/-- The machines are the same but for what they do at unknown traps. -/
structure SameButSetting (m m' : Machine κ) : Prop where
  core : m.toCore = m'.toCore
  status : m.status = m'.status

/-- In `n` steps the machines answer alike, and then they are the same but
for the setting. -/
structure Agree (m m' : Machine κ) (n : Nat) : Prop where
  answers : m.answers n = m'.answers n
  same : SameButSetting (m.steps n) (m'.steps n)

/-- Both machines call the same unknown trap from the same address. The one
stops, the other goes on, and what they leave is the same core, with the
address behind the call as link and program counter. -/
structure Part (m m' : Machine κ) (vector : UInt8) (addr : Word) : Prop where
  stopsAt : CallsUnknown m vector addr
  passes : CallsUnknown m' vector addr
  stops : m.step.1 = .fault (.unknownTrap vector addr)
  goesOn : m'.step.1 = .running
  core : m.step.2.toCore = m'.step.2.toCore
  pc : m.step.2.regs.pc = addr.place 1
  link : m.step.2.regs.get 7 = addr.place 1

/-! ## The call of an unknown trap -/

variable {m m' : Machine κ}

/-- The vectors without a routine are those below 0x20 and those above 0x25. -/
theorem callsUnknown_of_decode (hrun : m.status = .running) {vector : UInt8}
    (hdecode : m.word.decode = .trap vector) (ht : Trap.ofVector? vector = none) :
    CallsUnknown m vector m.regs.pc := by
  obtain ⟨hopcode, hlow⟩ := Word.decode_eq_trap_iff.1 hdecode
  exact ⟨hrun, rfl, hopcode, hlow, Trap.ofVector?_eq_none_iff.1 ht⟩

/-- Whatever the setting is, the link is kept and nothing else is done. -/
theorem step_of_callsUnknown {vector : UInt8} {addr : Word} (h : CallsUnknown m vector addr) :
    m.step = if m.ignoreUnknownTraps then (.running, { m with toCore := m.fetched.link })
      else Machine.fail { m with toCore := m.fetched.link } (.unknownTrap vector addr) := by
  have hdecode := Word.decode_eq_trap_iff.2 ⟨h.opcode, h.lowByte⟩
  rw [Machine.step_of_unknown h.running hdecode (Trap.ofVector?_eq_none_iff.2 h.outside), h.pc]

/-- A machine that is the same but for the setting is about to do the same. -/
theorem CallsUnknown.of_same {vector : UInt8} {addr : Word} (h : CallsUnknown m vector addr)
    (hsame : SameButSetting m m') : CallsUnknown m' vector addr := by
  have hword : m.word = m'.word := by rw [Machine.word, Machine.word, hsame.core]
  refine ⟨hsame.status ▸ h.running, ?_, hword ▸ h.opcode, hword ▸ h.lowByte, h.outside⟩
  rw [← hsame.core]
  exact h.pc

/-- **Where the settings part.** The one machine reports the call and the
other goes on, and the core is the same in both, for the link is kept before
the setting is looked at. -/
theorem part_of_callsUnknown {vector : UInt8} {addr : Word} (h : CallsUnknown m vector addr)
    (hsame : SameButSetting m m') (hstops : m.ignoreUnknownTraps = false)
    (hignores : m'.ignoreUnknownTraps = true) : Part m m' vector addr := by
  have hm := step_of_callsUnknown h
  have hm' := step_of_callsUnknown (h.of_same hsame)
  rw [hstops, if_neg Bool.false_ne_true] at hm
  rw [hignores, if_pos rfl] at hm'
  have hpc : m.fetched.regs.pc = addr.place 1 := by
    rw [← h.pc]
    rfl
  refine ⟨h, h.of_same hsame, ?_, ?_, ?_, ?_, ?_⟩
  · rw [hm]
    rfl
  · rw [hm']
  · rw [hm, hm']
    show m.fetched.link = m'.fetched.link
    rw [Machine.fetched, Machine.fetched, hsame.core]
  · rw [hm]
    exact hpc
  · rw [hm]
    exact (Registers.get_set_self _ 7 _).trans hpc

/-- No step changes the setting. -/
theorem ignoreUnknownTraps_step (m : Machine κ) :
    m.step.2.ignoreUnknownTraps = m.ignoreUnknownTraps := by
  cases hstep : m.step with
  | mk o m' => cases Machine.stepsTo_iff.2 hstep <;> rfl

theorem ignoreUnknownTraps_steps (m : Machine κ) (n : Nat) :
    (m.steps n).ignoreUnknownTraps = m.ignoreUnknownTraps :=
  Machine.keeps_steps (I := fun n => n.ignoreUnknownTraps = m.ignoreUnknownTraps)
    (fun h => (ignoreUnknownTraps_step _).trans h) rfl n

/-- **The setting is looked at nowhere else.** For each kind of step but two,
the equation of the step does not mention the setting. -/
theorem agree_step (hsame : SameButSetting m m') (hnone : ∀ v a, ¬ CallsUnknown m v a) :
    m.step.1 = m'.step.1 ∧ SameButSetting m.step.2 m'.step.2 := by
  have hword : m.word = m'.word := by rw [Machine.word, Machine.word, hsame.core]
  have hfetched : m.fetched = m'.fetched := by rw [Machine.fetched, Machine.fetched, hsame.core]
  have hstatus := hsame.status
  cases hstep : m.step with
  | mk o n =>
    cases Machine.stepsTo_iff.2 hstep with
    | halted hm =>
      rw [Machine.step_of_halted (hstatus ▸ hm)]
      exact ⟨rfl, hsame⟩
    | faulted hm =>
      rw [Machine.step_of_faulted (hstatus ▸ hm)]
      exact ⟨rfl, hsame⟩
    | instr hm hdecode =>
      rw [Machine.step_of_instr (hstatus ▸ hm) (hword ▸ hdecode), hfetched]
      exact ⟨rfl, rfl, hstatus⟩
    | reserved hm hdecode =>
      rw [Machine.step_of_reserved (hstatus ▸ hm) (hword ▸ hdecode), hfetched, hword, hsame.core]
      exact ⟨rfl, rfl, rfl⟩
    -- the only two kinds of step in which the setting counts are excluded
    | ignored hm hdecode ht | unknown hm hdecode ht =>
      exact absurd (callsUnknown_of_decode hm hdecode ht) (hnone _ _)
    | routine hm hdecode ht =>
      rw [Machine.step_of_routine (hstatus ▸ hm) (hword ▸ hdecode) ht, hfetched]
      exact ⟨rfl, rfl, rfl⟩

theorem Agree.succ {n : Nat} (h : Agree m m' n) (hnone : ∀ v a, ¬ CallsUnknown (m.steps n) v a) :
    Agree m m' (n + 1) := by
  obtain ⟨hanswer, hsame⟩ := agree_step h.same hnone
  refine ⟨?_, ?_⟩
  · rw [Machine.answers_succ, Machine.answers_succ, h.answers, hanswer]
  · rw [Machine.steps_succ, Machine.steps_succ]
    exact hsame

/-- A machine that ignores unknown traps, and has not been stopped by one
before, is not stopped by one. -/
theorem step_ne_unknownTrap (hignores : m.ignoreUnknownTraps = true)
    (hfree : ∀ v a, m.status ≠ .faulted (.unknownTrap v a)) (vector : UInt8) (addr : Word) :
    m.step.1 ≠ .fault (.unknownTrap vector addr) := by
  intro h
  cases hstep : m.step with
  | mk o n =>
    rw [hstep] at h
    cases Machine.stepsTo_iff.2 hstep with
    | faulted hm =>
      obtain rfl := Outcome.fault.inj h
      exact hfree _ _ hm
    | unknown _ _ _ hstops => exact absurd (hstops.symm.trans hignores) Bool.false_ne_true
    | halted | instr | reserved | ignored => cases h
    | @routine vector t => cases hend : (t.run m.fetched.link).1 <;> rw [hend] at h <;> cases h

/-- The same over any number of steps: by induction on it, from a machine
that has not been stopped by such a call. -/
theorem unknownTrap_notMem_answers (vector : UInt8) (addr : Word) (n : Nat) : ∀ {m : Machine κ},
    m.ignoreUnknownTraps = true → (∀ v a, m.status ≠ .faulted (.unknownTrap v a)) →
    .fault (.unknownTrap vector addr) ∉ m.answers n := by
  induction n with
  | zero => exact fun _ _ => List.not_mem_nil
  | succ n ih =>
    intro m hignores hfree hmem
    have hstep := step_ne_unknownTrap hignores hfree
    obtain hfirst | hrest := List.mem_cons.1 hmem
    · exact hstep _ _ hfirst.symm
    · refine ih ((ignoreUnknownTraps_step m).trans hignores) ?_ hrest
      intro v a hstatus
      rw [Machine.status_step, Status.ofOutcome_eq_faulted_iff] at hstatus
      exact hstep _ _ hstatus

/-- **The settings part at the first unknown trap and nowhere else.** Two
machines are the same, but the one stops at unknown traps and the other
ignores them. In any number of steps they answer alike and stay the same,
unless they come to call an unknown trap, both the same from the same
address; there the one reports it and the other goes on, with the same core
once more. The one that ignores unknown traps never reports one, if it has
not hit a fault before. -/
theorem settings_part (m m' : Machine κ) (hsame : SameButSetting m m')
    (hstops : m.ignoreUnknownTraps = false) (hignores : m'.ignoreUnknownTraps = true)
    (hfree : ∀ f, m'.status ≠ .faulted f) :
    (∀ n, Agree m m' n ∨
      ∃ k < n, Agree m m' k ∧ ∃ vector addr, Part (m.steps k) (m'.steps k) vector addr) ∧
    ∀ n vector addr, .fault (.unknownTrap vector addr) ∉ m'.answers n := by
  refine ⟨?_, ?_⟩
  · intro n
    induction n with
    | zero => exact .inl ⟨rfl, hsame⟩
    | succ n ih =>
      rcases ih with hagree | ⟨k, hk, hparted⟩
      -- they have agreed so far, and they do so for one step more unless it is such
      -- a call
      · by_cases hcalls : ∃ v a, CallsUnknown (m.steps n) v a
        · obtain ⟨v, a, hcalls⟩ := hcalls
          refine .inr ⟨n, Nat.lt_succ_self n, hagree, v, a, ?_⟩
          refine part_of_callsUnknown hcalls hagree.same ?_ ?_
          · rw [ignoreUnknownTraps_steps, hstops]
          · rw [ignoreUnknownTraps_steps, hignores]
        · exact .inl (hagree.succ fun v a h => hcalls ⟨v, a, h⟩)
      · exact .inr ⟨k, Nat.lt_succ_of_lt hk, hparted⟩
  · intro n vector addr
    exact unknownTrap_notMem_answers vector addr n hignores fun v a => hfree _

/-- TRAP 0xFF at the last address of memory. -/
def calling : Machine Script := .about 0xFFFF 0xF0FF {}

/-- The two machines part at once, at address 65535, and stand at address 0. -/
theorem settings_part_calling :
    SameButSetting calling { calling with ignoreUnknownTraps := true } ∧
    (∀ f, calling.status ≠ .faulted f) ∧
    Part calling { calling with ignoreUnknownTraps := true } 0xFF 0xFFFF ∧
    calling.step.2.regs.pc = 0 := by
  have hsame : SameButSetting calling { calling with ignoreUnknownTraps := true } := ⟨rfl, rfl⟩
  have hfree : ∀ f, calling.status ≠ .faulted f := fun f => nofun
  have hcalls : CallsUnknown calling 0xFF 0xFFFF := by
    have hword : calling.word = 0xF0FF := Machine.word_about (by decide) _ _
    refine ⟨rfl, rfl, ?_, ?_, by decide⟩
    · rw [hword]
      decide
    · rw [hword]
      decide
  obtain ⟨hruns, -⟩ := settings_part calling { calling with ignoreUnknownTraps := true } hsame rfl
    rfl hfree
  rcases hruns 1 with hagree | ⟨k, hk, -, vector, addr, hpart⟩
  · -- the answers of the first step differ
    have hanswers := hagree.answers
    have hfirst := step_of_callsUnknown hcalls
    have hsecond := step_of_callsUnknown (hcalls.of_same hsame)
    simp only [Machine.answers, hfirst, hsecond] at hanswers
    cases hanswers
  · obtain rfl : k = 0 := Nat.lt_one_iff.1 hk
    rw [Machine.steps, Machine.steps] at hpart
    have hvector : 0xFF = vector := hcalls.lowByte.symm.trans hpart.stopsAt.lowByte
    have haddr : 0xFFFF = addr := hcalls.pc.symm.trans hpart.stopsAt.pc
    subst hvector haddr
    have hnext : (0xFFFF : Word).place 1 = 0 := by decide
    exact ⟨hsame, hfree, hpart, hpart.pc.trans hnext⟩

end LC3.UnknownTraps
