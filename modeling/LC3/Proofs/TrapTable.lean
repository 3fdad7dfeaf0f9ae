import LC3.Console.Script
import LC3.Proofs.Routines
import LC3.Proofs.Step
import LC3.Proofs.StringLoop

/-!
# The trap table

What a call of each trap routine does to a machine over a script, written
down apart from the routines: bytes are quotients and remainders of words, a
string ends at the least distance of a zero word counted on through 65535 to
0, and what is left is described by registers, flag, unread input and output.
`Serves` has one line for each of the six numbers.

> `step_serves`: a running machine that fetches a trap call with one of the
> six numbers does what the table says, and in any case keeps its link and
> leaves memory and the other registers alone.

The two routines that print a string return exactly if memory has a zero word
at all. They look at memory without polling the keyboard, and the fetch of a
trap call did not poll it either (`Machine.pc_ne_kbsr_of_trap`), so no word
changes, the two of the keyboard included.
-/

namespace LC3

namespace TrapTable

/-! ## Bytes -/

/-- The bytes of a text of ASCII characters. -/
def ascii (text : String) : List UInt8 := text.toList.map fun ch => .ofNat ch.toNat

/-- The low half of a word as a byte. -/
def low (w : Word) : UInt8 := .ofNat (w.toNat % 256)

/-- The high half of a word as a byte. -/
def high (w : Word) : UInt8 := .ofNat (w.toNat / 256)

/-- The characters of a word that holds two: the high one only if it is not
zero. -/
def pair (w : Word) : List UInt8 := if w.toNat / 256 = 0 then [low w] else [low w, high w]

theorem lowByte_eq_low (w : Word) : w.lowByte = low w := by
  apply UInt8.toNat_inj.1
  rw [Word.toNat_lowByte, low, UInt8.toNat_ofNat']
  omega

theorem highByte_eq_high (w : Word) : w.highByte = high w := by
  have := w.isLt
  apply UInt8.toNat_inj.1
  rw [high, UInt8.toNat_ofNat']
  show (w.extractLsb' 8 8).toNat = _
  rw [BitVec.extractLsb'_toNat, Nat.shiftRight_eq_div_pow]

/-- A word that holds two characters gives the low one first. A high byte of
zero is left out. -/
theorem packedBytes_eq_pair (w : Word) : Trap.packedBytes w = pair w := by
  have hw := w.isLt
  have hhigh : w.highByte = 0 ↔ w.toNat / 256 = 0 := by
    rw [highByte_eq_high, ← UInt8.toNat_inj, high, UInt8.toNat_ofNat']
    show _ % 256 = 0 ↔ _
    omega
  unfold Trap.packedBytes pair
  by_cases h : w.toNat / 256 = 0
  · rw [if_pos (hhigh.2 h), if_pos h, lowByte_eq_low]
  · rw [if_neg fun hz => h (hhigh.1 hz), if_neg h, lowByte_eq_low, highByte_eq_high]

theorem promptText_eq : Trap.promptText = ascii "Enter a character: " := by decide

theorem haltText_eq : Trap.haltText = ascii "HALT\n" := by decide

/-- What a call leaves, whatever it answers: program counter and register 7
are past the word, and memory, the registers between and the setting for
unknown traps are as before. -/
structure Links (m : Machine Script) (o : Outcome) (m' : Machine Script) : Prop where
  pc : m'.regs.pc = m.regs.pc.place 1
  link : m'.regs.get 7 = m.regs.pc.place 1
  get : ∀ r : Reg, r ≠ 0 → r ≠ 7 → m'.regs.get r = m.regs.get r
  mem : m'.mem = m.mem
  ignoreUnknownTraps : m'.ignoreUnknownTraps = m.ignoreUnknownTraps
  status : m'.status = if o = .halted then .halted else .running

/-- Bytes are written; register 0, the flag and the unread input are as
before. -/
structure Writes (m : Machine Script) (bytes : List UInt8) (m' : Machine Script) : Prop where
  get_zero : m'.regs.get 0 = m.regs.get 0
  cond : m'.regs.cond = m.regs.cond
  input : m'.console.input = m.console.input
  output : m'.console.output.toList = m.console.output.toList ++ bytes

/-- The byte `b` is taken off the input into register 0, the flag is its
sign, and bytes are written. -/
structure Receives (m : Machine Script) (b : UInt8) (bytes : List UInt8) (m' : Machine Script) :
    Prop where
  input : m.console.input = b :: m'.console.input
  get_zero : (m'.regs.get 0).toNat = b.toNat
  cond : m'.regs.cond = .ofSign b.toNat
  output : m'.console.output.toList = m.console.output.toList ++ bytes

/-- The word `j` places past `a` is zero, and none is that is nearer. -/
def EndsFirst (mem : Memory) (a : Word) (j : Nat) : Prop :=
  mem.peek (a.place j) = 0 ∧ ∀ i < j, mem.peek (a.place i) ≠ 0

/-- The string at register 0 is written with `bytes` for each word, if memory
has a zero word to end it; otherwise the loop that prints it has no end. -/
structure Prints (m : Machine Script) (bytes : Word → List UInt8) (o : Outcome)
    (m' : Machine Script) : Prop where
  returns_iff : o = .running ↔ ∃ a, m.mem.peek a = 0
  loop_iff : o = .running ↔ ∃ t, PrintLoop m.mem bytes (m.regs.get 0) m.console t
  writes : o = .running → ∃ j ≤ 65535, EndsFirst m.mem (m.regs.get 0) j ∧
    Writes m ((List.range j).flatMap fun i => bytes (m.mem.peek ((m.regs.get 0).place i))) m'

/-- What a call with the number `vector` answers and leaves. A routine that
reads does so if there is a byte to read. -/
def Serves (vector : Nat) (m : Machine Script) (o : Outcome) (m' : Machine Script) : Prop :=
  match vector with
  | 0x20 => ∀ b ∈ m.console.input.head?, o = .running ∧ Receives m b [] m'
  | 0x21 => o = .running ∧ Writes m [low (m.regs.get 0)] m'
  | 0x22 => Prints m (fun w => [low w]) o m'
  | 0x23 =>
    ∀ b ∈ m.console.input.head?,
      o = .running ∧ Receives m b (ascii "Enter a character: " ++ [b]) m'
  | 0x24 => Prints m pair o m'
  | 0x25 => o = .halted ∧ Writes m (ascii "HALT\n") m'
  | _ => False

/-! ## The routines follow the table -/

/-- A string ends where the table says that it does, counted on from its
first word. -/
theorem endsAt_iff {mem : Memory} {a : Word} {j : Nat} :
    mem.EndsAt a j ↔ mem.peek (a.place j) = 0 := by
  rw [Memory.EndsAt, Word.place_eq_add]

theorem wordsFrom_eq_map (mem : Memory) (a : Word) (n : Nat) :
    mem.wordsFrom a n = (List.range n).map fun i => mem.peek (a.place i) := by
  refine List.ext_getElem (by simp [Memory.wordsFrom]) fun i _ _ => ?_
  simp [Memory.wordsFrom, Word.place_eq_add]

/-- The string that is found ends at the nearest zero word and has the words
before it. -/
theorem endsFirst_of_string? {mem : Memory} {a : Word} {ws : List Word}
    (h : mem.string? a = some ws) :
    ∃ j ≤ 65535, EndsFirst mem a j ∧ ws = (List.range j).map fun i => mem.peek (a.place i) := by
  obtain ⟨j, hj, rfl⟩ := Option.map_eq_some_iff.1 h
  obtain ⟨hlt, hend, hmin⟩ := Memory.stringLength?_eq_some_iff.1 hj
  refine ⟨j, by omega, ⟨endsAt_iff.1 hend, ?_⟩, wordsFrom_eq_map mem a j⟩
  intro i hi hz
  exact hmin i hi (endsAt_iff.2 hz)

/-- A routine is called with a core that has what it looks at from the
machine. -/
structure CalledFrom (m : Machine Script) (c : Core Script) : Prop where
  get_zero : c.regs.get 0 = m.regs.get 0
  cond : c.regs.cond = m.regs.cond
  mem : c.mem = m.mem
  console : c.console = m.console

variable {m m' : Machine Script} {c : Core Script}

/-- A print leaves registers, flag and input alone, and its bytes are written
in order. -/
theorem writes_print {bytes : List UInt8} (hc : CalledFrom m c)
    (h : m'.toCore = Trap.print bytes c) : Writes m bytes m' := by
  rw [Trap.print_eq, hc.console] at h
  obtain ⟨core', status', ignore'⟩ := m'
  obtain rfl : core' = _ := h
  exact ⟨hc.get_zero, hc.cond, rfl, Array.toList_appendList⟩

/-- The two routines that print a string differ in the bytes of a word. That
one returns, that its loop comes to an end, and that memory has a zero word
are the same thing. -/
theorem prints_printString {bytes : Word → List UInt8} (hc : CalledFrom m c)
    (h : m'.toCore = (Trap.printString (·.flatMap bytes) c).2) :
    Prints m bytes (.ofEnd (Trap.printString (·.flatMap bytes) c).1) m' := by
  cases hp : Trap.printString (·.flatMap bytes) c with
  | mk e d =>
    rw [hp] at h
    have hloop : Outcome.ofEnd e = .running ↔
        ∃ t, PrintLoop m.mem bytes (m.regs.get 0) m.console t := by
      rw [← hc.get_zero, ← hc.mem, ← hc.console]
      constructor
      · intro he
        cases e with
        -- a routine that returns has left the loop at its end
        | resume =>
          obtain ⟨t, ht, -⟩ := Trap.printString_eq_resume_iff.1 hp
          exact ⟨t, ht⟩
        | halt | starved | endless => cases he
      · intro ⟨t, ht⟩
        have hresume := Trap.printString_eq_resume_iff.2 ⟨t, ht, rfl⟩
        rw [hp] at hresume
        obtain ⟨rfl, -⟩ := Prod.mk.inj hresume
        rfl
    refine ⟨hloop.trans exists_printLoop_iff, hloop, ?_⟩
    intro he
    obtain ⟨t, ht⟩ := hloop.1 he
    rw [← hc.get_zero, ← hc.mem, ← hc.console] at ht
    -- the loop has one end only, so the core is the one that the routine leaves at it
    have hd : d = { c with console := Console.flush t } := by
      have hresume := Trap.printString_eq_resume_iff.2 ⟨t, ht, rfl⟩
      rw [hp] at hresume
      exact (Prod.mk.inj hresume).2
    obtain ⟨ws, hws, rfl⟩ := printLoop_iff.1 ht
    rw [hc.mem, hc.get_zero] at hws
    obtain ⟨j, hj, hfirst, rfl⟩ := endsFirst_of_string? hws
    rw [List.flatMap_map] at hd
    exact ⟨j, hj, hfirst, writes_print hc (h.trans hd)⟩

/-- A byte that is read goes into register 0 as a number from 0 to 255. -/
theorem receives_setResult {b : UInt8} {s : Script} {bytes : List UInt8}
    (hinput : m.console.input = b :: s.input)
    (houtput : s.output.toList = m.console.output.toList ++ bytes)
    (h : m'.toCore = Core.setResult { c with console := s } 0 (.ofByte b)) :
    Receives m b bytes m' := by
  have hnum := Word.toNat_ofByte b
  obtain ⟨core', status', ignore'⟩ := m'
  obtain rfl : core' = _ := h
  refine ⟨hinput, ?_, ?_, houtput⟩
  · show ((c.regs.setResult 0 (.ofByte b)).get 0).toNat = _
    rw [Registers.get_setResult, if_pos rfl, hnum]
  · show (c.regs.setResult 0 (.ofByte b)).cond = _
    have hsmall : 2 * (Word.ofByte b).toNat < 2 ^ 16 := by
      have := b.toNat_lt
      omega
    rw [Registers.cond_setResult, Flag.of_eq_ofSign, BitVec.toInt_eq_toNat_of_lt hsmall, hnum]

/-- Each routine has its line of the table. What it is called with is the
core behind the fetch and the link, so the lines are read off a core that has
the machine's memory and console. -/
theorem serves_run (t : Trap) (hc : CalledFrom m c) (h : m'.toCore = (t.run c).2) :
    Serves t.number m (.ofEnd (t.run c).1) m' := by
  cases t with
  | getc =>
    intro b hb
    obtain ⟨rest, hinput⟩ := List.head?_eq_some_iff.1 hb
    -- with a byte to read the routine takes it and has nothing else to do
    have hread : Console.readByte? c.console = some (b, ⟨rest, m.console.output⟩) := by
      rw [hc.console, Script.readByte?_eq_some_iff]
      exact ⟨hinput, rfl⟩
    simp only [Trap.run, hread] at h ⊢
    exact ⟨rfl, receives_setResult (s := ⟨rest, m.console.output⟩) hinput
      (List.append_nil _).symm h⟩
  | out =>
    refine ⟨rfl, ?_⟩
    rw [← lowByte_eq_low, ← hc.get_zero]
    exact writes_print hc h
  | puts =>
    have hencode : (fun ws : List Word => ws.map Word.lowByte) =
        fun ws => ws.flatMap fun w => [low w] := by
      funext ws
      rw [List.map_eq_flatMap]
      simp only [lowByte_eq_low]
    simp only [Trap.run, hencode] at h ⊢
    exact prints_printString hc h
  | prompt =>
    intro b hb
    obtain ⟨rest, hinput⟩ := List.head?_eq_some_iff.1 hb
    -- the prompt is written before the byte is taken, and changes nothing about which byte it is
    have hread :
        Console.readByte? (Script.mk c.console.input (c.console.output ++ Trap.promptText)) =
        some (b, ⟨rest, m.console.output ++ Trap.promptText⟩) := by
      rw [Script.readByte?_eq_some_iff, hc.console]
      exact ⟨hinput, rfl⟩
    simp only [Trap.run, Trap.print_eq, hread] at h ⊢
    refine ⟨rfl, receives_setResult (c := c)
      (s := ⟨rest, m.console.output ++ Trap.promptText ++ [b]⟩) hinput ?_ h⟩
    rw [Array.toList_appendList, Array.toList_appendList, promptText_eq, List.append_assoc]
  | putsp =>
    have hencode : (fun ws : List Word => ws.flatMap Trap.packedBytes) =
        fun ws => ws.flatMap pair := by
      funext ws
      rw [funext packedBytes_eq_pair]
    simp only [Trap.run, hencode] at h ⊢
    exact prints_printString hc h
  | halt =>
    refine ⟨rfl, ?_⟩
    rw [← haltText_eq]
    exact writes_print hc h

/-- **A call does what the trap table says.** A running machine that fetches
a trap call with one of the six numbers, whatever bits 11 to 8 are, keeps its
link, changes no word of memory and serves the call; one that prints a string
returns exactly if there is a zero word to end it. -/
theorem step_serves (m : Machine Script) (hrun : m.status = .running) (hop : m.word.opcode = 15)
    (hvector : 0x20 ≤ m.word.toNat % 256 ∧ m.word.toNat % 256 ≤ 0x25) :
    Links m m.step.1 m.step.2 ∧ Serves (m.word.toNat % 256) m m.step.1 m.step.2 := by
  rw [← Word.toNat_lowByte] at hvector ⊢
  obtain ⟨t, ht, hnumber⟩ := Trap.ofVector?_of_number hvector
  rw [← hnumber, Machine.step_of_routine hrun (Word.decode_eq_trap_iff.2 ⟨hop, rfl⟩) ht]
  -- the fetch was no poll, so the core that the routine is called with has the machine's memory
  have hfetched := (Machine.word_of_pc_ne (Machine.pc_ne_kbsr_of_trap hop)).2
  -- the fetch changes no register and the link only its own
  have hget : ∀ r : Reg, r ≠ 7 → m.fetched.link.regs.get r = m.regs.get r := by
    intro r hr
    rw [hfetched]
    exact (Registers.get_set _ 7 r _).trans (if_neg hr)
  have hcalled : CalledFrom m m.fetched.link := by
    refine ⟨hget 0 (by decide), ?_, ?_, ?_⟩ <;> rw [hfetched] <;> rfl
  refine ⟨?_, serves_run t hcalled rfl⟩
  constructor
  · exact (Trap.pc_run t _).trans (by rw [hfetched]; rfl)
  · refine (Trap.get_run t _ (by decide)).trans ?_
    rw [hfetched]
    exact Registers.get_set_self _ 7 _
  · exact fun r h0 h7 => (Trap.get_run t _ h0).trans (hget r h7)
  · exact (Trap.mem_run t _).trans hcalled.mem
  · rfl
  · cases hend : (t.run m.fetched.link).1 <;> rfl

/-- IN at the last address, with bits 11 to 8 set: the byte 255 is taken and
the next one stays. -/
theorem step_serves_in :
    (Machine.about 0xFFFF 0xFA23 (Script.ofInput [0xFF, 0])).status = .running ∧
    (Machine.about 0xFFFF 0xFA23 (Script.ofInput [0xFF, 0])).word.opcode = 15 ∧
    Links (.about 0xFFFF 0xFA23 (Script.ofInput [0xFF, 0]))
      (Machine.about 0xFFFF 0xFA23 (Script.ofInput [0xFF, 0])).step.1
      (Machine.about 0xFFFF 0xFA23 (Script.ofInput [0xFF, 0])).step.2 ∧
    Serves 0x23 (.about 0xFFFF 0xFA23 (Script.ofInput [0xFF, 0]))
      (Machine.about 0xFFFF 0xFA23 (Script.ofInput [0xFF, 0])).step.1
      (Machine.about 0xFFFF 0xFA23 (Script.ofInput [0xFF, 0])).step.2 := by
  have hword : (Machine.about 0xFFFF 0xFA23 (Script.ofInput [0xFF, 0])).word = 0xFA23 :=
    Machine.word_about (by decide) _ _
  have hop : (Machine.about 0xFFFF 0xFA23 (Script.ofInput [0xFF, 0])).word.opcode = 15 := by
    rw [hword]
    decide
  have hserves := step_serves (.about 0xFFFF 0xFA23 (Script.ofInput [0xFF, 0])) rfl hop (by
    rw [hword]
    decide)
  rw [hword] at hserves
  exact ⟨rfl, hop, hserves⟩

end TrapTable

end LC3
