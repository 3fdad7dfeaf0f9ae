import LC3.Console.Script
import LC3.Proofs.Fields
import LC3.Proofs.StringLoop

/-!
# Two formats, one text

A text without zero bytes can stand in memory in two ways: a byte to a word,
where the high halves may be anything, or two bytes to a word, where the high
half of an odd last byte is zero. Each has a routine that prints it. The
formats differ in what a zero half means: in the first it never counts, in
the second it is the end of a text of odd length, and in both only a word
that is zero altogether ends the string. So a full last word needs a zero
word behind it just like a half one.

> `string?_of_holds`: the string that is found is the words that memory
> holds, wherever they are;
> `flatMap_packedBytes_pack`: taking words apart undoes packing, for odd and
> even lengths;
> `prints_same_text`: either routine returns and writes exactly the text.

The words may go round past address 65535 and may lie over the keyboard
registers: the scan of a string polls nothing.
-/

namespace LC3

namespace Word

/-- A word with a byte in its low half is not zero, whatever its high half
is. -/
theorem ofBytes_ne_zero {hi lo : UInt8} (h : lo ≠ 0) : ofBytes hi lo ≠ 0 := by
  intro hzero
  have hlow := congrArg lowByte hzero
  rw [lowByte_ofBytes] at hlow
  exact h hlow

theorem place_zero (a : Word) : a.place 0 = a := by
  rw [place_eq_add, Memory.place_zero]

theorem place_succ (a : Word) (j : Nat) : a.place (j + 1) = (a + 1).place j := by
  rw [place_eq_add, place_eq_add, Memory.place_succ]

end Word

namespace StringFormats

/-- The words from `a` on, going on at address 0 after the last one, are
`ws`, and behind them is a zero word. -/
structure Holds (mem : Memory) (a : Word) (ws : List Word) : Prop where
  word : ∀ i w, ws[i]? = some w → mem.peek (a.place i) = w
  last : mem.peek (a.place ws.length) = 0

/-- The text stands in memory a byte to a word, whatever the high halves are. -/
def HoldsSpread (mem : Memory) (a : Word) (s : List UInt8) : Prop :=
  ∃ ws, Holds mem a ws ∧ ws.map Word.lowByte = s

/-- The words of a text that is packed two bytes to a word, the first of the
two low. -/
def pack : List UInt8 → List Word
  | [] => []
  | [b] => [.ofBytes 0 b]
  | b :: c :: s => .ofBytes c b :: pack s

/-- The text stands in memory two bytes to a word. -/
def HoldsPacked (mem : Memory) (a : Word) (s : List UInt8) : Prop := Holds mem a (pack s)

/-- The routine returns. Its loop, with `bytes` for each word, ends and has
written the text, and the output is handed on; registers, flag and memory are
as before, and the console has not been asked for anything. -/
structure Prints {κ : Type} [Console κ] (t : Trap) (bytes : Word → List UInt8) (c : Core κ)
    (s : List UInt8) : Prop where
  run : t.run c = (.resume, { c with console := Console.flush (Console.writeAll s c.console) })
  loop : PrintLoop c.mem bytes (c.regs.get 0) c.console (Console.writeAll s c.console)

/-- The routine returns, and all it has done to a machine over a script is to
write the text. -/
structure AddsToOutput (t : Trap) (c : Core Script) (s : List UInt8) : Prop where
  returns : (t.run c).1 = .resume
  output : (t.run c).2.console.output.toList = c.console.output.toList ++ s
  input : (t.run c).2.console.input = c.console.input
  regs : (t.run c).2.regs = c.regs
  mem : (t.run c).2.mem = c.mem

/-- Two bytes that were packed are taken out in the order in which they were
put in. -/
theorem packedBytes_ofBytes {hi lo : UInt8} (h : hi ≠ 0) :
    Trap.packedBytes (.ofBytes hi lo) = [lo, hi] := by
  rw [Trap.packedBytes, Word.highByte_ofBytes, Word.lowByte_ofBytes, if_neg h]

/-- The last byte of an odd text has nothing in the other half, and nothing
is written for it. -/
theorem packedBytes_ofBytes_zero (lo : UInt8) : Trap.packedBytes (.ofBytes 0 lo) = [lo] := by
  rw [Trap.packedBytes, Word.highByte_ofBytes, Word.lowByte_ofBytes, if_pos rfl]

/-- **Taking words apart undoes packing.** The recursion takes two bytes at a
time, as packing does; that no byte is zero is needed for the high halves
only. -/
theorem flatMap_packedBytes_pack : ∀ {s : List UInt8}, 0 ∉ s →
    (pack s).flatMap Trap.packedBytes = s
  | [], _ => rfl
  | [b], _ => by
    rw [pack, List.flatMap_singleton, packedBytes_ofBytes_zero]
  | b :: c :: s, hs => by
    obtain ⟨-, hc, hrest⟩ : 0 ≠ b ∧ 0 ≠ c ∧ 0 ∉ s := by simpa using hs
    rw [pack, List.flatMap_cons, packedBytes_ofBytes hc.symm, flatMap_packedBytes_pack hrest]
    rfl

/-- A word of a packed text has a byte in its low half, so no such word ends
the string. -/
theorem zero_notMem_pack : ∀ {s : List UInt8}, 0 ∉ s → 0 ∉ pack s
  | [], _ => List.not_mem_nil
  | [b], hs => by
    have hb : 0 ≠ b := by simpa using hs
    rw [pack, List.mem_singleton]
    exact (Word.ofBytes_ne_zero hb.symm).symm
  | b :: c :: s, hs => by
    obtain ⟨hb, -, hrest⟩ : 0 ≠ b ∧ 0 ≠ c ∧ 0 ∉ s := by simpa using hs
    rw [pack, List.mem_cons, not_or]
    exact ⟨(Word.ofBytes_ne_zero hb.symm).symm, zero_notMem_pack hrest⟩

/-- If a word were zero, so would be its low half. -/
theorem zero_notMem_of_map_lowByte {ws : List Word} (h : 0 ∉ ws.map Word.lowByte) : 0 ∉ ws :=
  fun hmem => h (List.mem_map.2 ⟨0, hmem, rfl⟩)

/-! ## The string in memory -/

theorem holds_nil_iff {mem : Memory} {a : Word} : Holds mem a [] ↔ mem.peek a = 0 := by
  constructor
  · intro h
    have hlast := h.last
    rwa [List.length_nil, Word.place_zero] at hlast
  · intro h
    refine ⟨nofun, ?_⟩
    rwa [List.length_nil, Word.place_zero]

/-- The first word and the rest, which begins at the next address. -/
theorem holds_cons_iff {mem : Memory} {a w : Word} {ws : List Word} :
    Holds mem a (w :: ws) ↔ mem.peek a = w ∧ Holds mem (a + 1) ws := by
  constructor
  · intro h
    have hfirst := h.word 0 w rfl
    have hlast := h.last
    rw [Word.place_zero] at hfirst
    rw [List.length_cons, Word.place_succ] at hlast
    refine ⟨hfirst, ?_, hlast⟩
    intro i v hv
    rw [← Word.place_succ]
    exact h.word (i + 1) v hv
  · rintro ⟨hfirst, hrest⟩
    refine ⟨?_, ?_⟩
    · intro i v hv
      cases i with
      | zero =>
        obtain rfl := Option.some.inj hv
        rwa [Word.place_zero]
      | succ i =>
        rw [Word.place_succ]
        exact hrest.word i v hv
    · rw [List.length_cons, Word.place_succ]
      exact hrest.last

/-- **The string that is found is what memory holds**, if none of the words
is zero. -/
theorem string?_of_holds {mem : Memory} {ws : List Word} (hws : 0 ∉ ws) :
    ∀ {a : Word}, Holds mem a ws → mem.string? a = some ws := by
  induction ws with
  | nil => exact fun h => Memory.string?_of_zero (holds_nil_iff.1 h)
  | cons w ws ih =>
    intro a h
    obtain ⟨hw, hrest⟩ := not_or.1 (mt List.mem_cons.2 hws)
    obtain ⟨rfl, htail⟩ := holds_cons_iff.1 h
    rw [Memory.string?_of_ne (Ne.symm hw), ih hrest htail]
    rfl

variable {κ : Type} [Console κ] {c : Core κ} {s : List UInt8}

/-- A routine prints what its `bytes` say of the words that memory holds. -/
theorem prints_of_holds {t : Trap} {bytes : Word → List UInt8} {ws : List Word}
    (ht : t.run c = Trap.printString (·.flatMap bytes) c) (hws : 0 ∉ ws)
    (h : Holds c.mem (c.regs.get 0) ws) : Prints t bytes c (ws.flatMap bytes) := by
  have hstring := string?_of_holds hws h
  constructor
  · rw [ht, Trap.printString, hstring]
    rfl
  · exact printLoop_iff.2 ⟨ws, hstring, rfl⟩

/-- The routine for a byte to a word writes the low halves, and these are the
text. -/
theorem prints_puts (hs : 0 ∉ s) (h : HoldsSpread c.mem (c.regs.get 0) s) :
    Prints .puts (fun w => [w.lowByte]) c s := by
  obtain ⟨ws, hholds, rfl⟩ := h
  have hencode : (fun ws : List Word => ws.map Word.lowByte) =
      fun ws => ws.flatMap fun w => [w.lowByte] := by
    funext ws
    exact List.map_eq_flatMap
  rw [List.map_eq_flatMap]
  refine prints_of_holds ?_ (zero_notMem_of_map_lowByte hs) hholds
  rw [Trap.run, hencode]

theorem prints_putsp (hs : 0 ∉ s) (h : HoldsPacked c.mem (c.regs.get 0) s) :
    Prints .putsp Trap.packedBytes c s := by
  have hprints := prints_of_holds (t := .putsp) rfl (zero_notMem_pack hs) h
  rwa [flatMap_packedBytes_pack hs] at hprints

/-- Over a script the console that the routine leaves can be written down. -/
theorem Prints.addsToOutput {t : Trap} {bytes : Word → List UInt8} {c : Core Script}
    (h : Prints t bytes c s) : AddsToOutput t c s := by
  have hrun := h.run
  constructor
  · rw [hrun]
  · rw [hrun]
    show (Console.writeAll s c.console).output.toList = _
    rw [Script.output_writeAll, Array.toList_appendList]
  · rw [hrun]
    exact Script.input_writeAll s c.console
  · rw [hrun]
  · rw [hrun]

/-- **Either format prints the same text.** Memory holds a text without zero
bytes from the address in register 0 on, in the format of the routine, and a
zero word is behind it. Then the routine returns and has written exactly the
text: over any console, by as many turns of its loop as there are words; and
over a script no input is gone, and no register, flag or word of memory has
changed. -/
theorem prints_same_text (s : List UInt8) (hs : 0 ∉ s) :
    (∀ (κ : Type) [Console κ] (c : Core κ),
      (HoldsSpread c.mem (c.regs.get 0) s → Prints .puts (fun w => [w.lowByte]) c s) ∧
      (HoldsPacked c.mem (c.regs.get 0) s → Prints .putsp Trap.packedBytes c s)) ∧
    ∀ c : Core Script,
      (HoldsSpread c.mem (c.regs.get 0) s → AddsToOutput .puts c s) ∧
      (HoldsPacked c.mem (c.regs.get 0) s → AddsToOutput .putsp c s) := by
  refine ⟨?_, ?_⟩
  · intro κ _ c
    exact ⟨prints_puts hs, prints_putsp hs⟩
  · intro c
    exact ⟨fun h => (prints_puts hs h).addsToOutput, fun h => (prints_putsp hs h).addsToOutput⟩

/-- A text of three letters over the keyboard registers, a byte to a word,
while a key waits. -/
def spreadOut : Core Script where
  regs := Registers.initial.set 0 0xFE00
  mem := ((Memory.zeroed.write 0xFE00 0x8061).write 0xFE01 0x0062).write 0xFE02 0xFF63
  console := .ofInput [0x6B]

/-- The same text, packed into the last word of memory and the first. -/
def packedUp : Core Script where
  regs := Registers.initial.set 0 0xFFFF
  mem := (Memory.zeroed.write 0xFFFF 0x6261).write 0 0x0063
  console := .ofInput [0x6B]

/-- Both routines print the three letters, and the key still waits. -/
theorem prints_same_text_threeLetters :
    0 ∉ ([0x61, 0x62, 0x63] : List UInt8) ∧
    HoldsSpread spreadOut.mem (spreadOut.regs.get 0) [0x61, 0x62, 0x63] ∧
    HoldsPacked packedUp.mem (packedUp.regs.get 0) [0x61, 0x62, 0x63] ∧
    AddsToOutput .puts spreadOut [0x61, 0x62, 0x63] ∧
    AddsToOutput .putsp packedUp [0x61, 0x62, 0x63] := by
  have hspread : HoldsSpread spreadOut.mem (spreadOut.regs.get 0) [0x61, 0x62, 0x63] := by
    have haddr : spreadOut.regs.get 0 = 0xFE00 := Registers.get_set_self _ 0 _
    rw [haddr]
    refine ⟨[0x8061, 0x0062, 0xFF63], ?_, by decide⟩
    simp [holds_cons_iff, holds_nil_iff, spreadOut, Memory.peek_write]
  have hpacked : HoldsPacked packedUp.mem (packedUp.regs.get 0) [0x61, 0x62, 0x63] := by
    have haddr : packedUp.regs.get 0 = 0xFFFF := Registers.get_set_self _ 0 _
    have hwords : pack [0x61, 0x62, 0x63] = [0x6261, 0x0063] := by decide
    rw [haddr, HoldsPacked, hwords]
    simp [holds_cons_iff, holds_nil_iff, packedUp, Memory.peek_write]
  obtain ⟨-, hscript⟩ := prints_same_text [0x61, 0x62, 0x63] (by decide)
  exact ⟨by decide, hspread, hpacked, (hscript spreadOut).1 hspread, (hscript packedUp).2 hpacked⟩

end StringFormats

end LC3
