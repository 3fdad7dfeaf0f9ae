import LC3.Proofs.Writes

/-!
# Two machines in lockstep

Two machines do the same as long as nothing that a step depends on differs
between them. What may differ is of two kinds: the consoles, which may be of
different types even, and some words of memory (`AlikeOff`). A program sees
of its console what polls and reads answer, and of its memory the words that
it looks at. So it is enough that the consoles answer alike and stay alike
(`Console.AlikeWhen`), and that no step looks at a word that differs. Then a
step answers alike, and what it has written does not differ any more.

Some consoles answer alike only under a condition: a read may find a byte on
one side only, or a poll. The condition is owed where a step asks, and
nowhere else.

> `Machine.AlikeOff.step`: one step of two such machines;
> `Machine.Alike.step_when`, `Machine.Alike.step`, `Machine.Alike.runFrom`:
> the same memory over different consoles; without a condition only a step
> that starves is left out, because the second console may have an answer
> there.
-/

namespace LC3

variable {κ κ' : Type} [Console κ] [Console κ']

/-! ## Consoles -/

/-- Consoles that are related by `R` answer alike and stay related. -/
structure Console.Alike (R : κ → κ' → Prop) : Prop where
  keyReady : ∀ {s t}, R s t → (Console.keyReady s).1 = (Console.keyReady t).1 ∧
    R (Console.keyReady s).2 (Console.keyReady t).2
  readByte?_of_ready : ∀ {s t}, R s t → (Console.keyReady s).1 = true →
    ∃ r, Console.readByte? (Console.keyReady s).2 = some r
  readByte? : ∀ {s t b s'}, R s t → Console.readByte? s = some (b, s') →
    ∃ t', Console.readByte? t = some (b, t') ∧ R s' t'
  writeByte : ∀ {s t} b, R s t → R (Console.writeByte b s) (Console.writeByte b t)
  flush : ∀ {s t}, R s t → R (Console.flush s) (Console.flush t)

/-- A read waits on both consoles, or gives the same byte and leaves them
related. -/
def Console.ReadAlike (R : κ → κ' → Prop) (s : κ) (t : κ') : Prop :=
  Console.readByte? s = none ∧ Console.readByte? t = none ∨
    ∃ b s' t', Console.readByte? s = some (b, s') ∧ Console.readByte? t = some (b, t') ∧ R s' t'

/-- Consoles that are related by `R` answer a poll alike where the first one
satisfies `P`, and a read where it satisfies `Q`, and stay related. -/
structure Console.AlikeWhen (P Q : κ → Prop) (R : κ → κ' → Prop) : Prop where
  poll : ∀ {s t}, R s t → P s →
    (Console.poll s).1 = (Console.poll t).1 ∧ R (Console.poll s).2 (Console.poll t).2
  read : ∀ {s t}, R s t → Q s → Console.ReadAlike R s t
  writeByte : ∀ {s t} b, R s t → R (Console.writeByte b s) (Console.writeByte b t)
  flush : ∀ {s t}, R s t → R (Console.flush s) (Console.flush t)

variable {P Q : κ → Prop} {R : κ → κ' → Prop}

/-- What `Alike` promises about a read that succeeds is one half of
`ReadAlike`; where the first console has nothing to read, the second may have
something. -/
theorem Console.Alike.readAlike (hR : Console.Alike R) {s : κ} {t : κ'} (h : R s t)
    (hsome : Console.readByte? s ≠ none) : Console.ReadAlike R s t := by
  obtain ⟨⟨b, s'⟩, hs⟩ := Option.ne_none_iff_exists'.1 hsome
  obtain ⟨t', ht, h'⟩ := hR.readByte? h hs
  exact .inr ⟨b, s', t', hs, ht, h'⟩

/-- Consoles that are alike answer every poll alike, and a read as soon as
the first of them has a byte: only that second condition is left to be owed. -/
theorem Console.Alike.alikeWhen (hR : Console.Alike R) :
    Console.AlikeWhen (fun _ => True) (fun s => Console.readByte? s ≠ none) R where
  poll := by
    intro s t h _
    obtain ⟨hready, hkey⟩ := hR.keyReady h
    have hbyte := hR.readByte?_of_ready h
    unfold Console.poll
    cases hs : Console.keyReady s with
    | mk x s' =>
      cases ht : Console.keyReady t with
      | mk y t' =>
        rw [hs, ht] at hready hkey
        rw [hs] at hbyte
        obtain rfl : x = y := hready
        -- both polls take the same branch: no key on either side, or the same byte on both
        cases x with
        | false => exact ⟨rfl, hkey⟩
        | true =>
          obtain ⟨⟨b, s''⟩, hsome⟩ := hbyte rfl
          obtain ⟨t'', hsome', h''⟩ := hR.readByte? hkey hsome
          simp only [hsome, hsome']
          exact ⟨trivial, h''⟩
  read := hR.readAlike
  writeByte := hR.writeByte
  flush := hR.flush

/-- A console is alike to itself. -/
theorem Console.alikeWhen_eq : Console.AlikeWhen (fun _ => True) (fun _ => True) (@Eq κ) where
  poll := by
    rintro s _ rfl _
    exact ⟨rfl, rfl⟩
  read := by
    rintro s _ rfl _
    cases h : Console.readByte? s with
    | none => exact .inl ⟨h, h⟩
    | some r => exact .inr ⟨r.1, r.2, r.2, h, h, rfl⟩
  writeByte := fun b h => congrArg (Console.writeByte b) h
  flush := fun h => congrArg Console.flush h

/-- Printing is writes and a flush, so it owes no condition and answers
nothing. By induction on the bytes. -/
theorem Console.AlikeWhen.print (hR : Console.AlikeWhen P Q R) (bytes : List UInt8) :
    ∀ {s t}, R s t → R (Console.flush (Console.writeAll bytes s))
      (Console.flush (Console.writeAll bytes t)) := by
  induction bytes with
  | nil => exact fun h => hR.flush h
  | cons b bytes ih => exact fun h => ih (hR.writeByte b h)

/-! ## Memory -/

/-- What is left of a set of addresses when some have been written. -/
def Unwritten (off : Word → Prop) (written : List Word) : Word → Prop :=
  fun b => off b ∧ b ∉ written

/-- The memories hold the same words outside `off`. -/
def Memory.AgreeOff (off : Word → Prop) (mem mem' : Memory) : Prop :=
  ∀ b, ¬ off b → mem.peek b = mem'.peek b

namespace Memory.AgreeOff

variable {off : Word → Prop} {mem mem' : Memory}

/-- A word that is written on both sides agrees from then on, whatever it was
before. -/
theorem write (h : AgreeOff off mem mem') (a w : Word) :
    AgreeOff (Unwritten off [a]) (mem.write a w) (mem'.write a w) := by
  intro b hb
  rw [peek_write, peek_write]
  by_cases hba : b = a
  · rw [if_pos hba, if_pos hba]
  · rw [if_neg hba, if_neg hba]
    exact h b fun hoff => hb ⟨hoff, by simpa using hba⟩

/-- A poll is one or two such writes, the same ones on both sides if it has
found the same key. -/
theorem latch (h : AgreeOff off mem mem') (key : Option UInt8) :
    AgreeOff (Unwritten off (latchWrites key)) (mem.latch key) (mem'.latch key) := by
  cases key with
  | none => exact h.write kbsr 0
  | some key =>
    intro b hb
    refine (h.write kbsr 0x8000).write kbdr (.ofByte key) b ?_
    rintro ⟨⟨hoff, hs⟩, hd⟩
    refine hb ⟨hoff, fun hmem => ?_⟩
    rcases List.mem_cons.1 hmem with hmem | hmem
    · exact hs (List.mem_singleton.2 hmem)
    · exact hd hmem

/-- A scan that visits only words that agree finds the same end. The words
before the end must be known not to end the string, since a scan that has
ended visits no more. -/
theorem endsAt_iff (h : AgreeOff off mem mem') {a : Word} {j : Nat}
    (hscan : ∀ b, mem.ScanVisits a b → ¬ off b) (hbefore : ∀ i < j, ¬ mem.EndsAt a i) :
    mem.EndsAt a j ↔ mem'.EndsAt a j := by
  rw [EndsAt, EndsAt, h _ (hscan _ ⟨j, rfl, hbefore⟩)]

/-- The scan ends at the same place on both sides, or on neither: up to the
end it compares words that agree, and if there is no end all of memory
agrees. -/
theorem stringLength?_eq (h : AgreeOff off mem mem') {a : Word}
    (hscan : ∀ b, mem.ScanVisits a b → ¬ off b) : mem.stringLength? a = mem'.stringLength? a := by
  cases hlen : mem.stringLength? a with
  | some j =>
    obtain ⟨hlt, hend, hbefore⟩ := stringLength?_eq_some_iff.1 hlen
    refine (stringLength?_eq_some_iff.2 ⟨hlt, (h.endsAt_iff hscan hbefore).1 hend, ?_⟩).symm
    intro i hi
    rw [← h.endsAt_iff hscan fun k hk => hbefore k (Nat.lt_trans hk hi)]
    exact hbefore i hi
  | none =>
    -- without an end the scan visits every place
    have hnever := endFrom?_eq_none_iff.1 hlen
    refine (endFrom?_eq_none_iff.2 fun i hle hlt => ?_).symm
    rw [← h.endsAt_iff hscan fun k hk => hnever k (Nat.zero_le k) (Nat.lt_trans hk hlt)]
    exact hnever i hle hlt

/-- The words before the end are visited as well, so the two strings are the
same. -/
theorem wordsFrom_eq (h : AgreeOff off mem mem') {a : Word} {n : Nat}
    (hscan : ∀ b, mem.ScanVisits a b → ¬ off b) (hbefore : ∀ i < n, ¬ mem.EndsAt a i) :
    mem.wordsFrom a n = mem'.wordsFrom a n := by
  unfold wordsFrom
  congr 1
  funext i
  exact h _ (hscan _ ⟨i, rfl, fun k hk => hbefore k (Nat.lt_trans hk i.isLt)⟩)

end Memory.AgreeOff

/-! ## Cores -/

/-- The same registers and memory over consoles that are related by `R`. -/
structure Core.Alike (R : κ → κ' → Prop) (c : Core κ) (d : Core κ') : Prop where
  regs : c.regs = d.regs
  mem : c.mem = d.mem
  console : R c.console d.console

/-- The same registers, and the same memory outside `off`, over consoles that
are related by `R`. -/
structure Core.AlikeOff (off : Word → Prop) (R : κ → κ' → Prop) (c : Core κ) (d : Core κ') :
    Prop where
  regs : c.regs = d.regs
  mem : c.mem.AgreeOff off d.mem
  console : R c.console d.console

namespace Core.AlikeOff

variable {off off' : Word → Prop} {c : Core κ} {d : Core κ'}

omit [Console κ] [Console κ'] in
theorem mono (h : AlikeOff off R c d) (hsub : ∀ b, off b → off' b) : AlikeOff off' R c d :=
  ⟨h.regs, fun b hb => h.mem b fun hoff => hb (hsub b hoff), h.console⟩

omit [Console κ] [Console κ'] in
/-- Writing nothing leaves the set as it is. -/
theorem unwritten_nil (h : AlikeOff off R c d) : AlikeOff (Unwritten off []) R c d :=
  h.mono fun _ hb => ⟨hb, List.not_mem_nil⟩

omit [Console κ] [Console κ'] in
/-- What is written in two goes is written in one. -/
theorem unwritten_append {xs ys : List Word}
    (h : AlikeOff (Unwritten (Unwritten off xs) ys) R c d) :
    AlikeOff (Unwritten off (xs ++ ys)) R c d :=
  h.mono fun _ ⟨⟨hoff, hxs⟩, hys⟩ => ⟨hoff, fun hmem => (List.mem_append.1 hmem).elim hxs hys⟩

omit [Console κ] [Console κ'] in
/-- The register file is the same on both sides, so what is computed from it
is: a jump, the link and a result differ in nothing. -/
theorem jump (h : AlikeOff off R c d) (a : Word) : AlikeOff off R (c.jump a) (d.jump a) :=
  ⟨by rw [Core.jump, Core.jump, h.regs], h.mem, h.console⟩

omit [Console κ] [Console κ'] in
theorem link (h : AlikeOff off R c d) : AlikeOff off R c.link d.link :=
  ⟨by rw [Core.link, Core.link, h.regs], h.mem, h.console⟩

omit [Console κ] [Console κ'] in
theorem setResult (h : AlikeOff off R c d) (r : Reg) (w : Word) :
    AlikeOff off R (c.setResult r w) (d.setResult r w) :=
  ⟨by rw [Core.setResult, Core.setResult, h.regs], h.mem, h.console⟩

omit [Console κ] [Console κ'] in
/-- A store writes the same word on both sides. It may well hit a word that
differed before. -/
theorem store (h : AlikeOff off R c d) (a w : Word) :
    AlikeOff (Unwritten off [a]) R (c.store a w) (d.store a w) :=
  ⟨h.regs, h.mem.write a w, h.console⟩

omit [Console κ] [Console κ'] in
theorem withConsole (h : AlikeOff off R c d) {s : κ} {t : κ'} (hst : R s t) :
    AlikeOff off R { c with console := s } { d with console := t } :=
  ⟨h.regs, h.mem, hst⟩

/-- A read outside `off` gives the same word. It asks the console only at the
keyboard status register, and there it writes what it has found to both
memories. -/
theorem read (hR : Console.AlikeWhen P Q R) (h : AlikeOff off R c d) {a : Word}
    (hP : a = kbsr → P c.console) (ha : ¬ off a) :
    (c.read a).1 = (d.read a).1 ∧
      AlikeOff (Unwritten off (c.readWrites a)) R (c.read a).2 (d.read a).2 := by
  by_cases hkbsr : a = kbsr
  · obtain ⟨hkey, hconsole⟩ := hR.poll h.console (hP hkbsr)
    subst hkbsr
    have hmem := h.mem.latch (Console.poll c.console).1
    rw [Core.read_kbsr, Core.read_kbsr, Core.poll_eq, Core.poll_eq, ← hkey, Core.readWrites_kbsr]
    exact ⟨hmem kbsr fun hoff => ha hoff.1, h.regs, hmem, hconsole⟩
  · rw [Core.read_of_ne c hkbsr, Core.read_of_ne d hkbsr, Core.readWrites_of_ne c hkbsr]
    exact ⟨h.mem a ha, h.unwritten_nil⟩

theorem load (hR : Console.AlikeWhen P Q R) (h : AlikeOff off R c d) (dst : Reg) {a : Word}
    (hP : a = kbsr → P c.console) (ha : ¬ off a) :
    AlikeOff (Unwritten off (c.readWrites a)) R ((c.read a).2.setResult dst (c.read a).1)
      ((d.read a).2.setResult dst (d.read a).1) := by
  obtain ⟨hw, hread⟩ := h.read hR hP ha
  rw [hw]
  exact hread.setResult dst _

/-- **An instruction that reads nothing in `off` does the same on both
sides.** -/
theorem exec (hR : Console.AlikeWhen P Q R) (h : AlikeOff off R c d) (i : Instr)
    (hP : kbsr ∈ c.reads i → P c.console) (hoff : ∀ a ∈ c.reads i, ¬ off a) :
    AlikeOff (Unwritten off (c.writes i)) R (c.exec i) (d.exec i) := by
  have hregs := h.regs
  cases i with
  | br nzp offset =>
    simp only [Core.exec, Core.writes, ← hregs]
    split
    · exact h.unwritten_nil
    · exact (h.jump _).unwritten_nil
  | add | and | not | lea =>
    simp only [Core.exec, Core.writes, ← hregs]
    exact (h.setResult _ _).unwritten_nil
  | ld | ldr =>
    simp only [Core.exec, Core.writes, ← hregs]
    exact h.load hR _ (fun ha => hP (List.mem_singleton.2 ha.symm)) (hoff _ List.mem_cons_self)
  | ldi dst offset =>
    simp only [Core.reads, List.forall_mem_cons] at hoff
    obtain ⟨hfirst, hsecond, -⟩ := hoff
    -- the pointer is read first and is the same on both sides, so the second access
    -- is the same too
    obtain ⟨hpointer, hread⟩ := h.read hR (fun ha => hP (List.mem_cons.2 (.inl ha.symm))) hfirst
    simp only [Core.exec, Core.writes, ← hregs, ← hpointer]
    refine (hread.load hR dst (fun hp => ?_) fun h => hsecond h.1).unwritten_append
    -- only one of the two accesses can be a poll
    by_cases ha : c.regs.pc + offset = kbsr
    · rw [ha] at hp
      exact absurd hp c.read_kbsr_ne.1
    · rw [Core.read_of_ne c ha]
      exact hP (List.mem_cons_of_mem _ (List.mem_singleton.2 hp.symm))
  | st | str =>
    simp only [Core.exec, Core.writes, ← hregs]
    exact h.store _ _
  | sti src offset =>
    obtain ⟨hpointer, hread⟩ :=
      h.read hR (fun ha => hP (List.mem_singleton.2 ha.symm)) (hoff _ List.mem_cons_self)
    simp only [Core.exec, Core.writes, ← hregs, ← hpointer]
    exact (hread.store _ _).unwritten_append
  | jmp base =>
    simp only [Core.exec, Core.writes, ← hregs]
    exact (h.jump _).unwritten_nil
  | jsr offset =>
    simp only [Core.exec, Core.writes, ← hregs]
    exact (h.link.jump _).unwritten_nil
  | jsrr base =>
    simp only [Core.exec, Core.writes, ← h.link.regs]
    exact (h.link.jump _).unwritten_nil

theorem print (hR : Console.AlikeWhen P Q R) (h : AlikeOff off R c d) (bytes : List UInt8) :
    AlikeOff off R (Trap.print bytes c) (Trap.print bytes d) :=
  h.withConsole (hR.print bytes h.console)

/-- The scan finds the same string, or none on either side. -/
theorem printString (hR : Console.AlikeWhen P Q R) (h : AlikeOff off R c d)
    (encode : List Word → List UInt8)
    (hscan : ∀ b, c.mem.ScanVisits (c.regs.get 0) b → ¬ off b) :
    (Trap.printString encode c).1 = (Trap.printString encode d).1 ∧
      AlikeOff off R (Trap.printString encode c).2 (Trap.printString encode d).2 := by
  -- the two branches of the routine depend on the length alone, and the lengths are
  -- equal
  have hlength := h.mem.stringLength?_eq hscan
  unfold Trap.printString Memory.string?
  rw [← h.regs, ← hlength]
  cases hlen : c.mem.stringLength? (c.regs.get 0) with
  | none =>
    have hnever := Memory.endFrom?_eq_none_iff.1 hlen
    have hwords := h.mem.wordsFrom_eq hscan fun i hi => hnever i (Nat.zero_le i) (by omega)
    exact ⟨congrArg (fun words => Trap.End.endless (encode words)) hwords, h⟩
  | some j =>
    have hwords := h.mem.wordsFrom_eq hscan (Memory.stringLength?_eq_some_iff.1 hlen).2.2
    simp only [Option.map_some, hwords]
    exact ⟨trivial, h.print hR _⟩

/-- **A routine that visits nothing in `off` does the same on both sides.**
Two of the routines read a byte, which is either there on both sides or on
neither. -/
theorem run (hR : Console.AlikeWhen P Q R) (h : AlikeOff off R c d) (t : Trap)
    (hQ : ∀ s, t.ReadsFrom c.console s → Q s) (hscan : ∀ b, t.Scans c b → ¬ off b) :
    (t.run c).1 = (t.run d).1 ∧ AlikeOff off R (t.run c).2 (t.run d).2 := by
  cases t with
  | getc =>
    simp only [Trap.run]
    obtain ⟨hs, ht⟩ | ⟨b, s, t, hs, ht, hst⟩ := hR.read h.console (hQ _ (.inl ⟨rfl, rfl⟩))
    · rw [hs, ht]
      exact ⟨rfl, h⟩
    · rw [hs, ht]
      exact ⟨rfl, (h.withConsole hst).setResult 0 _⟩
  | prompt =>
    have hprint := h.print hR Trap.promptText
    simp only [Trap.run]
    obtain ⟨hs, ht⟩ | ⟨b, s, t, hs, ht, hst⟩ := hR.read hprint.console (hQ _ (.inr ⟨rfl, rfl⟩))
    · rw [hs, ht]
      exact ⟨rfl, hprint⟩
    · rw [hs, ht]
      exact ⟨rfl, ((hprint.withConsole hst).print hR [b]).setResult 0 _⟩
  | puts => exact h.printString hR _ fun b hb => hscan b ⟨.inl rfl, hb⟩
  | putsp => exact h.printString hR _ fun b hb => hscan b ⟨.inr rfl, hb⟩
  | out =>
    simp only [Trap.run, ← h.regs]
    exact ⟨trivial, h.print hR _⟩
  | halt => exact ⟨rfl, h.print hR _⟩

end Core.AlikeOff

/-! ## Machines -/

/-- The same registers, memory, status and setting over consoles that are
related by `R`. -/
structure Machine.Alike (R : κ → κ' → Prop) (m : Machine κ) (n : Machine κ') : Prop
    extends Core.Alike R m.toCore n.toCore where
  status : m.status = n.status
  ignoreUnknownTraps : m.ignoreUnknownTraps = n.ignoreUnknownTraps

/-- The same, but for the words in `off`. -/
structure Machine.AlikeOff (off : Word → Prop) (R : κ → κ' → Prop) (m : Machine κ)
    (n : Machine κ') : Prop extends Core.AlikeOff off R m.toCore n.toCore where
  status : m.status = n.status
  ignoreUnknownTraps : m.ignoreUnknownTraps = n.ignoreUnknownTraps

namespace Machine.AlikeOff

variable {off : Word → Prop} {m : Machine κ} {n : Machine κ'}

/-- The fetch is a read at the program counter, which the register files
agree on. -/
theorem fetch (hR : Console.AlikeWhen P Q R) (h : AlikeOff off R m n)
    (hP : m.regs.pc = kbsr → P m.console) (hpc : ¬ off m.regs.pc) :
    m.word = n.word ∧
      Core.AlikeOff (Unwritten off (m.toCore.readWrites m.regs.pc)) R m.fetched n.fetched := by
  obtain ⟨hw, hread⟩ := h.toAlikeOff.read hR hP hpc
  unfold Machine.word Machine.fetched
  rw [← h.regs]
  exact ⟨hw, hread.jump _⟩

/-- **Machines over consoles that answer alike answer alike themselves**, as
long as no step looks at a word that differs; and then they agree on what the
step has written as well. -/
theorem step (hR : Console.AlikeWhen P Q R) (h : AlikeOff off R m n)
    (hP : kbsr ∈ m.reads → P m.console) (hQ : ∀ s, m.ReadsFrom s → Q s)
    (hlooks : ∀ b, m.LooksAt b → ¬ off b) :
    m.step.1 = n.step.1 ∧ AlikeOff (Unwritten off m.writes) R m.step.2 n.step.2 := by
  have hstatus := h.status
  cases hm : m.status with
  | halted =>
    -- a machine that has stopped does nothing, and there is nothing to owe
    have hwrites : m.writes = [] := by rw [writes, hm]
    rw [step_of_halted hm, step_of_halted (hstatus.symm.trans hm), hwrites]
    exact ⟨rfl, h.toAlikeOff.unwritten_nil, hstatus, h.ignoreUnknownTraps⟩
  | faulted f =>
    have hwrites : m.writes = [] := by rw [writes, hm]
    rw [step_of_faulted hm, step_of_faulted (hstatus.symm.trans hm), hwrites]
    exact ⟨rfl, h.toAlikeOff.unwritten_nil, hstatus, h.ignoreUnknownTraps⟩
  | running =>
    have hn := hstatus.symm.trans hm
    have hpc := pc_mem_reads hm
    obtain ⟨hword, hfetched⟩ := h.fetch hR (fun heq => hP (heq ▸ hpc)) (hlooks _ (.inl hpc))
    cases hdecode : m.word.decode with
    | instr i =>
      have hreads := reads_of_instr hm hdecode
      have hmem : ∀ a ∈ m.fetched.reads i, a ∈ m.reads :=
        fun a ha => hreads ▸ List.mem_cons_of_mem _ ha
      rw [step_of_instr hm hdecode, step_of_instr hn (hword ▸ hdecode), writes_of_instr hm hdecode]
      -- if the instruction polls, the fetch has not, and the condition still holds
      -- behind it
      refine ⟨rfl, (hfetched.exec hR i ?_ ?_).unwritten_append, hstatus, h.ignoreUnknownTraps⟩
      · intro hpoll
        rw [console_fetched_of_mem hm hdecode hpoll]
        exact hP (hmem _ hpoll)
      · exact fun a ha hoff => hlooks a (.inl (hmem a ha)) hoff.1
    | reserved opcode =>
      rw [step_of_reserved hm hdecode, step_of_reserved hn (hword ▸ hdecode), ← hword, ← h.regs,
        writes_of_reserved hm hdecode]
      exact ⟨rfl, hfetched, rfl, h.ignoreUnknownTraps⟩
    | trap vector =>
      rw [writes_of_trap hm hdecode]
      cases ht : Trap.ofVector? vector with
      | none =>
        rw [step_of_unknown hm hdecode ht, step_of_unknown hn (hword ▸ hdecode) ht,
          ← h.ignoreUnknownTraps, ← h.regs]
        split
        · exact ⟨rfl, hfetched.link, hstatus, rfl⟩
        · exact ⟨rfl, hfetched.link, rfl, rfl⟩
      | some t =>
        rw [step_of_routine hm hdecode ht, step_of_routine hn (hword ▸ hdecode) ht]
        obtain ⟨hend, hcore⟩ := hfetched.link.run hR t
          (fun s hs => hQ s ⟨hm, vector, t, hdecode, ht, (link_of_trap hdecode).2.1 ▸ hs⟩)
          (fun b hb hoff => hlooks b (.inr (scans_of_routine hm hdecode ht hb)) hoff.1)
        rw [← hend]
        exact ⟨rfl, hcore, rfl, h.ignoreUnknownTraps⟩

omit [Console κ] [Console κ'] in
theorem mono (h : AlikeOff off R m n) {off' : Word → Prop} (hsub : ∀ b, off b → off' b) :
    AlikeOff off' R m n :=
  ⟨h.toAlikeOff.mono hsub, h.status, h.ignoreUnknownTraps⟩

omit [Console κ] [Console κ'] in
theorem alike (h : AlikeOff off R m n) (hnone : ∀ b, ¬ off b) : Alike R m n :=
  ⟨⟨h.regs, Memory.ext_peek fun b => h.mem b (hnone b), h.console⟩, h.status, h.ignoreUnknownTraps⟩

end Machine.AlikeOff

namespace Machine.Alike

variable {m : Machine κ} {n : Machine κ'}

omit [Console κ] [Console κ'] in
/-- The same memory agrees outside the empty set. So what is said about sets
of addresses holds for machines that differ in their consoles alone. -/
theorem alikeOff (h : Alike R m n) : AlikeOff (fun _ => False) R m n :=
  ⟨⟨h.regs, fun _ _ => by rw [h.mem], h.console⟩, h.status, h.ignoreUnknownTraps⟩

/-- **One step over consoles that answer alike where they are asked.** The
condition on polls is owed where the step reads the status register, the one
on reads at the console that the routine really reads from, which is behind
the prompt for one of them. -/
theorem step_when (hR : Console.AlikeWhen P Q R) (h : Alike R m n)
    (hP : kbsr ∈ m.reads → P m.console) (hQ : ∀ s, m.ReadsFrom s → Q s) :
    m.step.1 = n.step.1 ∧ Alike R m.step.2 n.step.2 := by
  obtain ⟨hanswer, hstep⟩ := h.alikeOff.step hR hP hQ fun _ _ => id
  exact ⟨hanswer, hstep.alike fun _ hoff => hoff.1⟩

/-- A step that does not starve finds a byte wherever it reads one. -/
theorem step (hR : Console.Alike R) (h : Alike R m n) (hstarved : m.step.1 ≠ .starved) :
    m.step.1 = n.step.1 ∧ Alike R m.step.2 n.step.2 :=
  h.step_when hR.alikeWhen (fun _ => trivial) fun _ hs hnone =>
    hstarved (starved_of_readsFrom hs hnone)

/-- Runs go on alike until one would have to wait. The step counts `i` and
`j` may differ: where a run was entered has no influence on where it leads.
By induction on the number of steps left. -/
theorem runFrom (hR : Console.Alike R) (limit : Nat) : ∀ {m : Machine κ} {n : Machine κ'}
    (i j : Nat), Alike R m n → (m.runFrom i limit).outcome ≠ .starved →
    (m.runFrom i limit).outcome = (n.runFrom j limit).outcome ∧
      Alike R (m.runFrom i limit).machine (n.runFrom j limit).machine := by
  induction limit with
  | zero => exact fun _ _ h _ => ⟨rfl, h⟩
  | succ limit ih =>
    intro m n i j h hstarved
    by_cases hrunning : m.step.1 = .running
    · obtain ⟨hanswer, hstep⟩ := h.step hR (by rw [hrunning]; nofun)
      rw [runFrom_succ_of_running i limit hrunning] at hstarved ⊢
      rw [runFrom_succ_of_running j limit (hanswer ▸ hrunning)]
      exact ih (i + 1) (j + 1) hstep hstarved
    · rw [runFrom_succ_of_ne i limit hrunning] at hstarved ⊢
      obtain ⟨hanswer, hstep⟩ := h.step hR hstarved
      rw [runFrom_succ_of_ne j limit (hanswer ▸ hrunning)]
      exact ⟨hanswer, hstep⟩

end Machine.Alike

end LC3
