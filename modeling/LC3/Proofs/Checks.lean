import LC3.Checked.Step
import LC3.Proofs.Routines
import LC3.Proofs.StringLoop

/-!
# The checks of a step

A step with every check written out does what the step of the panel does. The
proof goes up from the single test. Each operation has an equation that says
what becomes of it (`eval_getReg`, `eval_read`, `eval_exec`, …), and the
equation is where its tests are found to pass: a shift is by less than a
word, a mask of `bits` ones is a difference that is not negative, three bits
index eight registers and sixteen bits all of memory. Two things are left
that no equation settles, a read past the end of a script and a string
without an end.

> `signExtend_eq`: masking, and setting the bits above a set sign, is
> widening in two's complement, for every width from 1 to 15 and for no
> other;
> `eval_exec`: an instruction passes all its tests;
> `loopFor_printTurn`: the loop of a string takes one turn more than there
> are words to print;
> `settles_step`: the step comes to what `Panel.step` answers, and to a panic
> where that waits.
-/

namespace LC3.Checked

/-! ## Numbers -/

/-- A word and a power of two have the bit of that place in common, or
nothing. -/
theorem and_twoPow_eq_zero_iff {w : Word} {n : Nat} (h : n < 16) :
    w &&& BitVec.twoPow 16 n = 0 ↔ w.getLsbD n = false := by
  have hne : BitVec.twoPow 16 n ≠ 0 := by
    intro hzero
    have hbit := BitVec.getLsbD_twoPow (w := 16) n n
    rw [hzero] at hbit
    simp [h] at hbit
  rw [BitVec.and_twoPow]
  cases hbit : w.getLsbD n with
  | false => simp
  | true => simpa using hne

theorem and_twoPow_ne_zero {w : Word} {n : Nat} (h : n < 16) (hbit : w.getLsbD n = true) :
    w &&& BitVec.twoPow 16 n ≠ 0 :=
  fun hzero => nomatch hbit.symm.trans ((and_twoPow_eq_zero_iff h).1 hzero)

/-- What is left of a word shifted to bit `n` is tested by its lowest bit. -/
theorem shiftRight_and_one_eq_zero_iff {w : Word} {n : Nat} :
    w >>> n &&& 1 = 0 ↔ w.getLsbD n = false := by
  have hone : (1 : Word) = BitVec.twoPow 16 0 := by decide
  rw [hone, and_twoPow_eq_zero_iff (by decide), BitVec.getLsbD_ushiftRight, Nat.add_zero]

theorem toNat_twoPow {n : Nat} (h : n < 16) : (BitVec.twoPow 16 n).toNat = 2 ^ n := by
  rw [BitVec.toNat_twoPow, Nat.mod_eq_of_lt (Nat.pow_lt_pow_right (by decide) h)]

theorem one_le_twoPow {n : Nat} (h : n < 16) : (1 : Word) ≤ BitVec.twoPow 16 n := by
  rw [BitVec.le_def, toNat_twoPow h]
  exact Nat.two_pow_pos n

/-- One less than a power of two is the mask of the bits below it. -/
theorem and_twoPow_sub_one {n : Nat} (h : n < 16) (w : Word) :
    w &&& (BitVec.twoPow 16 n - 1) = (w.setWidth n).setWidth 16 := by
  have hlt : 2 ^ n < 2 ^ 16 := Nat.pow_lt_pow_right (by decide) h
  have hmod : w.toNat % 2 ^ n < 2 ^ n := Nat.mod_lt _ (Nat.two_pow_pos n)
  apply BitVec.eq_of_toNat_eq
  rw [BitVec.toNat_and, BitVec.toNat_sub_of_le (one_le_twoPow h), toNat_twoPow h]
  show w.toNat &&& (2 ^ n - 1) = _
  rw [Nat.and_two_pow_sub_one_eq_mod, BitVec.toNat_setWidth, BitVec.toNat_setWidth]
  exact (Nat.mod_eq_of_lt (Nat.lt_trans hmod hlt)).symm

/-- Ones above the field copy a sign that is set. The two sides are compared
bit by bit, those of the field and those above it. -/
theorem setWidth_or_ones {n : Nat} {x : BitVec n} (hmsb : x.msb = true) :
    x.setWidth 16 ||| (0xFFFF : Word) <<< n = x.signExtend 16 := by
  have hones : (0xFFFF : Word) = BitVec.allOnes 16 := by decide
  apply BitVec.eq_of_getLsbD_eq
  intro i hi
  rw [BitVec.getLsbD_or, BitVec.getLsbD_setWidth, BitVec.getLsbD_shiftLeft, hones,
    BitVec.getLsbD_allOnes, BitVec.getLsbD_signExtend, hmsb]
  by_cases hin : i < n
  · simp [hi, hin]
  · have habove : i - n < 16 := by omega
    simp [hi, hin, habove]

/-- **Masking and setting bits again is widening by the sign**, and no shift
and no difference of it is out of range, for every width that a field can
have. -/
theorem signExtend_eq (val : Word) (bits : Nat) :
    signExtend val bits =
      if 0 < bits ∧ bits < 16 then .ok (Word.signExtend bits val) else .error .width := by
  unfold signExtend
  by_cases h : 0 < bits ∧ bits < 16
  · obtain ⟨h0, h16⟩ := h
    -- the five tests pass, and what is left is a mask, a look at the sign and ones above it
    have hshift : shiftLeft 1 bits = .ok (BitVec.twoPow 16 bits) := if_pos h16
    have hsub : sub (BitVec.twoPow 16 bits) 1 = .ok (BitVec.twoPow 16 bits - 1) :=
      if_pos (one_le_twoPow h16)
    have hpred : pred bits = .ok (bits - 1) := if_pos h0
    have hright (w : Word) : shiftRight w (bits - 1) = .ok (w >>> (bits - 1)) := if_pos (by omega)
    have hones : shiftLeft 0xFFFF bits = .ok ((0xFFFF : Word) <<< bits) := if_pos h16
    have hsign : (val.setWidth bits).setWidth 16 >>> (bits - 1) &&& 1 = 0 ↔
        (val.setWidth bits).msb = false := by
      rw [shiftRight_and_one_eq_zero_iff, BitVec.getLsbD_setWidth, BitVec.msb_eq_getLsbD_last]
      simp [show bits - 1 < 16 by omega]
    rw [if_pos ⟨h0, h16⟩, if_pos ⟨h0, h16⟩]
    simp only [hshift, hsub, hpred, hright, hones, and_twoPow_sub_one h16, bind, Except.bind, pure,
      Except.pure, hsign, Word.signExtend]
    cases hmsb : (val.setWidth bits).msb with
    | false => rw [if_pos rfl, BitVec.signExtend_eq_setWidth_of_msb_false hmsb]
    | true => rw [if_neg (by decide), setWidth_or_ones hmsb]
  · rw [if_neg h, if_neg h]

theorem toNat_shiftRight_twelve (w : Word) : (w >>> 12).toNat = (Opcode.of w).toField.toNat := by
  rw [Word.toNat_toField_of, BitVec.toNat_ushiftRight, Nat.shiftRight_eq_div_pow]
  rfl

theorem lowByte_shiftRight_twelve (w : Word) :
    Word.lowByte (w >>> 12) = .ofNat (Opcode.of w).toField.toNat := by
  apply UInt8.toNat_inj.1
  rw [Word.toNat_lowByte, toNat_shiftRight_twelve]
  rfl

/-- No other number than the sixteen is left of a word by the shift, so the
case for any other is never reached. -/
theorem opcode_eq (instr : Word) : opcode instr = .ok (.of instr) := by
  show opcodeOfNat (instr >>> 12).toNat = _
  rw [toNat_shiftRight_twelve]
  cases Opcode.of instr <;> rfl

/-- The three bits of a field, masked out of the shifted word, are those that
decoding picks. -/
@[simp] theorem fieldAt_eq {low : Nat} (h : low < 16) (instr : Word) :
    fieldAt instr low = .ok ((instr.extractLsb' low 3).setWidth 16) := by
  have hmask : instr >>> low &&& 0b111 = (instr.extractLsb' low 3).setWidth 16 := by
    apply BitVec.eq_of_toNat_eq
    have hthree : (0b111 : Word).toNat = 2 ^ 3 - 1 := rfl
    rw [BitVec.toNat_and, hthree, Nat.and_two_pow_sub_one_eq_mod, BitVec.toNat_ushiftRight,
      BitVec.toNat_setWidth, BitVec.extractLsb'_toNat]
    omega
  rw [← hmask]
  simp only [fieldAt, shiftRight, if_pos h, bind, Except.bind, pure, Except.pure]

/-- The register that a field names is the one its number names. -/
@[simp] theorem ofWord_setWidth (field : BitVec 3) :
    Reg.ofWord (field.setWidth 16) = .ofField field := by
  revert field
  decide

/-- An index is masked before it is used, so it is below eight. -/
@[simp] theorem toNat_and_seven (r : Word) : r.toNat &&& 7 = (Reg.ofWord r).val := by
  rw [show (7 : Nat) = 2 ^ 3 - 1 from rfl, Nat.and_two_pow_sub_one_eq_mod]
  exact (BitVec.extractLsb'_toNat 0 3 r).symm

@[simp] theorem wordAt_fin {n : Nat} (words : Vector Word n) (i : Fin n) :
    wordAt words i = .ok words[i] := dif_pos i.isLt

@[simp] theorem putAt_fin {n : Nat} (words : Vector Word n) (i : Fin n) (w : Word) :
    putAt words i w = .ok (words.set i w) := dif_pos i.isLt

@[simp] theorem ofWord_zero : Reg.ofWord 0#16 = 0 := rfl

@[simp] theorem ofWord_seven : Reg.ofWord 7#16 = 7 := rfl

variable {turns : Nat} {c : Core Script}

/-- Registers are read and written without a panic, whatever word names them. -/
@[simp] theorem eval_getReg (r : Word) :
    (getReg r).eval turns c = some (.ok (c.regs.get (.ofWord r)), c) := by
  simp [getReg, Registers.get]

@[simp] theorem eval_setReg (r w : Word) :
    (setReg r w).eval turns c =
      some (.ok (), { c with regs := c.regs.set (.ofWord r) w }) := by
  simp [setReg, Registers.set]

@[simp] theorem eval_setWithFlags (r w : Word) :
    (setWithFlags r w).eval turns c = some (.ok (), c.setResult (.ofWord r) w) := by
  simp [setWithFlags, updateFlags, Core.setResult, Registers.setResult, Registers.updateCond]

@[simp] theorem eval_setPC (a : Word) : (setPC a).eval turns c = some (.ok (), c.jump a) := by
  simp [setPC]

/-! ## Memory and console -/

@[simp] theorem eval_peek (a : Word) : (peek a).eval turns c = some (.ok (c.mem.peek a), c) := by
  have hindex : wordAt c.mem.cells a.toNat = .ok (c.mem.peek a) := dif_pos a.isLt
  simp [peek, hindex]

@[simp] theorem eval_write (a w : Word) :
    (write a w).eval turns c = some (.ok (), c.store a w) := by
  have hindex : putAt c.mem.cells a.toNat w = .ok (c.mem.write a w).cells := dif_pos a.isLt
  simp [write, hindex, Core.store]

/-- The one operation that can panic: the script may have nothing to give. -/
theorem eval_readByte :
    readByte.eval turns c =
      match Console.readByte? c.console with
      | some (b, console) => some (.ok b, { c with console })
      | none => some (.error .outOfInput, c) := by
  obtain ⟨regs, mem, input, output⟩ := c
  cases input with
  | nil => simp [readByte, Console.readByte?]
  | cons b input => simp [readByte, Console.readByte?]

/-- A poll reads a byte only when there is one, so no read of memory can
panic, from whatever address it is. -/
@[simp] theorem eval_read (a : Word) :
    (read a).eval turns c = some (.ok (c.read a).1, (c.read a).2) := by
  by_cases ha : a = kbsr
  · obtain ⟨regs, mem, input, output⟩ := c
    cases input with
    | nil => simp [read, ha, Core.poll, Core.store]
    | cons b input =>
      simp [read, ha, Core.poll, Core.store, eval_readByte, shiftLeft, Console.readByte?]
  · simp [read, ha, Core.read]

@[simp] theorem eval_writeBytes (bytes : List UInt8) :
    (writeBytes bytes).eval turns c =
      some (.ok (), { c with console := Console.writeAll bytes c.console }) := rfl

@[simp] theorem eval_print (bytes : List UInt8) :
    (print bytes).eval turns c = some (.ok (), Trap.print bytes c) := rfl

/-! ## Instructions -/

@[simp] theorem signExtend_ok {bits : Nat} (h0 : 0 < bits) (h16 : bits < 16) (val : Word) :
    signExtend val bits = .ok (Word.signExtend bits val) := by
  rw [signExtend_eq, if_pos ⟨h0, h16⟩]

/-- The two ways to make an address add words, and a sum of words is in
range. -/
@[simp] theorem eval_pcRelative {bits : Nat} (h0 : 0 < bits) (h16 : bits < 16) (instr : Word) :
    (pcRelative instr bits).eval turns c =
      some (.ok (c.regs.pc + Word.signExtend bits instr), c) := by
  simp [pcRelative, h0, h16]

@[simp] theorem eval_baseRelative (instr : Word) :
    (baseRelative instr).eval turns c =
      some (.ok (c.regs.get instr.base + Word.signExtend 6 instr), c) := by
  simp [baseRelative, Word.base]

@[simp] theorem ofWord_and_seven (w : Word) : Reg.ofWord (w &&& 7#16) = Reg.ofWord w := by
  apply Fin.ext
  rw [← toNat_and_seven, ← toNat_and_seven, BitVec.toNat_and]
  exact Nat.and_assoc _ _ _

@[simp] theorem eval_operand (instr : Word) :
    (operand instr).eval turns c = some (.ok (instr.operand.value c.regs), c) := by
  unfold Word.operand
  cases h : instr.getLsbD 5 with
  | false =>
    have hbit : instr &&& 32#16 = 0#16 := (and_twoPow_eq_zero_iff (by decide)).2 h
    simp [operand, hbit, Operand.value]
  | true =>
    have hbit : ¬ instr &&& 32#16 = 0#16 := and_twoPow_ne_zero (by decide) h
    simp [operand, hbit, Operand.value]

/-- The bits of the flag meet a mask of three bits in a word as they do in
three bits. -/
theorem setWidth_and_eq_zero_iff {f m : BitVec 3} :
    f.setWidth 16 &&& m.setWidth 16 = 0#16 ↔ f &&& m = 0#3 := by
  revert f m
  decide

/-- A branch shifts its mask down and compares it with the flag in a word.
Three bits say the same. -/
theorem eval_br (instr : Word) :
    (exec instr .br).eval turns c =
      some (.ok (), c.exec (.br (instr.extractLsb' 9 3) (Word.signExtend 9 instr))) := by
  by_cases h : c.regs.cond.bits &&& instr.extractLsb' 9 3 = 0#3
  · simp [exec, Core.exec, setWidth_and_eq_zero_iff, h]
  · simp [exec, Core.exec, setWidth_and_eq_zero_iff, h]

/-- Bit 11 chooses between an offset and a register. -/
theorem eval_jsr (instr : Word) :
    (exec instr .jsr).eval turns c =
      some (.ok (), c.exec
        (if instr.getLsbD 11 then .jsr (Word.signExtend 11 instr) else .jsrr instr.base)) := by
  cases h : instr.getLsbD 11 with
  | false =>
    have hbit : instr &&& 2048#16 = 0#16 := (and_twoPow_eq_zero_iff (by decide)).2 h
    simp [exec, Core.exec, hbit, Word.base, Core.link]
  | true =>
    have hbit : ¬ instr &&& 2048#16 = 0#16 := and_twoPow_ne_zero (by decide) h
    simp [exec, Core.exec, hbit, Core.link]

/-- **An instruction passes all its tests**, and does what it says, whatever
the word and the state are. -/
theorem eval_exec {instr : Word} {i : Instr} (h : instr.decode = .instr i) :
    (exec instr (.of instr)).eval turns c = some (.ok (), c.exec i) := by
  unfold Word.decode at h
  cases hop : Opcode.of instr <;> rw [hop] at h <;> cases h
  -- these two look at bits to choose between two ways to go on
  case br => exact eval_br instr
  case jsr => exact eval_jsr instr
  all_goals simp [exec, Core.exec, Word.dst, Word.base]

/-! ## Trap routines -/

/-- A turn of the loop prints one word and moves on, or finds the zero that
ends the string. -/
theorem eval_printTurn (bytes : Word → List UInt8) (a : Word) :
    (printTurn bytes a).eval turns c =
      if c.mem.peek a = 0 then some (.ok none, c)
      else some (.ok (some (a + 1)),
        { c with console := Console.writeAll (bytes (c.mem.peek a)) c.console }) := by
  simp [printTurn]

/-- Without a zero word the turns are used up; with one the loop takes a turn
more than there are words before it. -/
theorem loopFor_printTurn (bytes : Word → List UInt8) (limit turns : Nat) :
    ∀ (a : Word) (c : Core Script),
      loopFor limit (printTurn bytes) turns a c =
        match c.mem.string? a with
        | some ws =>
          if ws.length < turns then
            some (.ok (), { c with console := Console.writeAll (ws.flatMap bytes) c.console })
          else none
        | none => none := by
  induction turns with
  | zero =>
    intro a c
    cases c.mem.string? a <;> rfl
  | succ turns ih =>
    intro a c
    -- the turn taken here is for the first word, or for the zero that ends the string
    unfold loopFor
    rw [eval_printTurn]
    by_cases h : c.mem.peek a = 0
    · rw [if_pos h, Memory.string?_of_zero h]
      rfl
    · rw [if_neg h, Memory.string?_of_ne h]
      simp only [andThen_ok, ih]
      cases c.mem.string? (a + 1) with
      | none => rfl
      | some ws => simp [Console.writeAll_append]

/-- The loop comes to an end if it is given a turn for each word and one for
the zero. Without a zero no number of turns is enough. -/
theorem settles_printString (bytes : Word → List UInt8) (c : Core Script) :
    Settles (printString bytes) c
      (match c.mem.string? (c.regs.get 0) with
        | some ws => some (.ok (), Trap.print (ws.flatMap bytes) c)
        | none => none) := by
  have heval (turns : Nat) : (printString bytes).eval turns c =
      andThen (loopFor turns (printTurn bytes) turns (c.regs.get 0) c)
        fun _ => flush.eval turns := by
    simp [printString]
  cases hws : c.mem.string? (c.regs.get 0) with
  | none =>
    refine settles_of_eval fun turns => ?_
    simp only [heval, loopFor_printTurn, hws]
    rfl
  | some ws =>
    -- with one turn more than there are words the loop has seen the zero
    refine ⟨ws.length + 1, fun turns => ?_⟩
    simp only [heval, loopFor_printTurn, hws, Nat.succ_le_iff]
    split <;> rfl

/-- What a routine comes to by its end: whether the machine is to halt. -/
def routineEval : Trap.End × Core Script → Eval (Core Script) Bool
  | (.resume, c) => some (.ok false, c)
  | (.halt, c) => some (.ok true, c)
  | (.starved, c) => some (.error .outOfInput, c)
  | (.endless _, _) => none

theorem settles_print (bytes : Word → List UInt8) (c : Core Script) :
    Settles
      (do
        printString bytes
        return false)
      c (routineEval (Trap.printString (·.flatMap bytes) c)) := by
  -- printing is followed by the answer that the machine goes on
  have hreturn (d : Core Script) :
      Settles (pure false : Checked (Core Script) Bool) d (some (.ok false, d)) :=
    settles_of_eval fun _ => rfl
  have hprint := (settles_printString bytes c).bind fun _ d => hreturn d
  unfold Trap.printString
  cases hws : c.mem.string? (c.regs.get 0) <;> rw [hws] at hprint <;> exact hprint

/-- **A routine comes to what its end says**: it waits for no byte but by a
panic. -/
theorem settles_routine (t : Trap) (c : Core Script) :
    Settles (routine t) c (routineEval (t.run c)) := by
  cases t with
  | puts =>
    have hwords : (fun ws : List Word => ws.map Word.lowByte) =
        fun ws => ws.flatMap fun w => [w.lowByte] := funext fun _ => List.map_eq_flatMap
    show Settles _ c (routineEval (Trap.printString (fun ws => ws.map Word.lowByte) c))
    rw [hwords]
    exact settles_print _ c
  | putsp => exact settles_print Trap.packedBytes c
  | out | halt => exact settles_of_eval fun turns => by simp [routine, Trap.run, routineEval]
  | getc =>
    refine settles_of_eval fun turns => ?_
    cases hread : Console.readByte? c.console with
    | none => simp [routine, eval_readByte, Trap.run, hread, routineEval]
    | some r => simp [routine, eval_readByte, Trap.run, hread, routineEval]
  | prompt =>
    refine settles_of_eval fun turns => ?_
    -- the prompt stands in the output before the script is looked at
    cases hread : Console.readByte? (Trap.print Trap.promptText c).console with
    | none => simp [routine, eval_readByte, Trap.run, hread, routineEval]
    | some r => simp [routine, eval_readByte, Trap.run, hread, routineEval]

/-- What a step comes to by what it answers. -/
def stepEval : Outcome × Panel Script → Eval (Panel Script) Outcome
  | (.starved, p) => some (.error .outOfInput, p)
  | (.endless _, _) => none
  | (o, p) => some (.ok o, p)

@[simp] theorem eval_onCore {α : Type} (x : Checked (Core Script) α) (p : Panel Script) :
    (onCore x).eval turns p =
      (x.eval turns p.toCore).putInto fun core => { p with toCore := core } := rfl

/-- If the operation comes to something, so it does at the panel. -/
theorem Settles.onCore {α : Type} {x : Checked (Core Script) α} {p : Panel Script}
    {r : Eval (Core Script) α} (h : Settles x p.toCore r) :
    Settles (onCore x) p (r.putInto fun core => { p with toCore := core }) := by
  obtain ⟨n, hn⟩ := h
  refine ⟨n, fun turns => ?_⟩
  rw [eval_onCore, hn]
  split <;> rfl

/-- The vector is masked out of the word before it is made a byte. -/
theorem lowByte_and_mask (w : Word) : (w &&& 255#16).lowByte = w.lowByte := by
  apply UInt8.toNat_inj.1
  rw [Word.toNat_lowByte, Word.toNat_lowByte, BitVec.toNat_and]
  show (w.toNat &&& (2 ^ 8 - 1)) % 2 ^ 8 = _
  rw [Nat.and_two_pow_sub_one_eq_mod, Nat.mod_mod]

section Running

variable {core : Core Script} {ignore : Bool}

/-- A call of a routine comes to what the routine comes to, with the link
kept before it. -/
theorem settles_routine_call {vector : UInt8} {t : Trap} (ht : Trap.ofVector? vector = some t)
    (addr : Word) :
    Settles (onCore (routine t) >>= fun halts => lightIf halts >>= fun _ => answer none)
      ⟨core.link, false, none, ignore⟩
      (stepEval (Panel.callTrap ⟨core, false, none, ignore⟩ vector addr)) := by
  -- first the routine, then the light if it halts, and the answer last
  have hroutine : Settles (onCore (routine t)) ⟨core.link, false, none, ignore⟩
      ((routineEval (t.run core.link)).putInto fun d => ⟨d, false, none, ignore⟩) :=
    Settles.onCore (p := ⟨core.link, false, none, ignore⟩) (settles_routine t core.link)
  have hlight (halts : Bool) (p : Panel Script) :
      Settles (lightIf halts >>= fun _ => answer none) p
        (if halts then some (.ok .halted, { p with halted := true })
        else some (.ok (if p.halted then .halted else .running), p)) :=
    settles_of_eval fun turns => by cases halts <;> simp [lightIf, answer]
  have hcall := hroutine.bind hlight
  -- each end of the routine has its answer at the panel
  simp only [Panel.callTrap, ht]
  cases hend : t.run core.link with
  | mk e d =>
    rw [hend] at hcall
    cases e <;> exact hcall

/-- A call comes to what the panel does: the routine's end if there is a
routine, and if not a fault or nothing at all. -/
theorem settles_callTrap (instr addr : Word) :
    Settles (callTrap instr addr >>= answer) ⟨core, false, none, ignore⟩
      (stepEval (Panel.callTrap ⟨core, false, none, ignore⟩ instr.lowByte addr)) := by
  cases ht : Trap.ofVector? instr.lowByte with
  | none =>
    refine settles_of_eval fun turns => ?_
    cases ignore with
    | false =>
      simp [callTrap, lowByte_and_mask, ht, fail, answer, Panel.callTrap, Panel.fail, stepEval,
        Core.link]
    | true => simp [callTrap, lowByte_and_mask, ht, answer, Panel.callTrap, stepEval, Core.link]
  | some t =>
    refine (settles_routine_call ht addr).of_eval fun turns => ?_
    simp [callTrap, lowByte_and_mask, ht, Core.link]

/-- A word that has been fetched passes all its tests, unless it calls a
routine that waits. -/
theorem settles_perform (core : Core Script) (ignore : Bool) (instr addr : Word) :
    Settles (perform instr addr >>= answer) ⟨core, false, none, ignore⟩
      (stepEval
        (match instr.decode with
          | .instr i => (.running, ⟨core.exec i, false, none, ignore⟩)
          | .trap vector => Panel.callTrap ⟨core, false, none, ignore⟩ vector addr
          | .reserved opcode =>
            Panel.fail ⟨core, false, none, ignore⟩ (.reservedOpcode opcode instr addr))) := by
  cases hdecode : instr.decode with
  | instr i =>
    refine settles_of_eval fun turns => ?_
    have hexec : (exec instr (.of instr)).eval turns core = _ := eval_exec hdecode
    unfold Word.decode at hdecode
    cases hop : Opcode.of instr <;> rw [hop] at hdecode hexec <;> cases hdecode
    all_goals simp [perform, opcode_eq, hop, hexec, answer, stepEval]
  | trap vector =>
    unfold Word.decode at hdecode
    cases hop : Opcode.of instr <;> rw [hop] at hdecode <;> cases hdecode
    refine (settles_callTrap instr addr).of_eval fun turns => ?_
    simp [perform, opcode_eq, hop]
  | reserved opcode =>
    refine settles_of_eval fun turns => ?_
    have hbyte := lowByte_shiftRight_twelve instr
    unfold Word.decode at hdecode
    cases hop : Opcode.of instr <;> rw [hop] at hdecode hbyte <;> cases hdecode
    all_goals
      simp [perform, opcode_eq, hop, shiftRight, hbyte, fail, answer, Panel.fail, stepEval,
        Opcode.toField]

end Running

/-- **The checks change nothing**: a step with all its tests does what the
step of the panel does, but where that waits for a byte, it panics. -/
theorem settles_step (p : Panel Script) : Settles step p (stepEval p.step) := by
  obtain ⟨core, halted, fault, ignore⟩ := p
  cases fault with
  | some f => exact settles_of_eval fun turns => by simp [step, stepEval, Panel.step]
  | none =>
    cases halted with
    | true => exact settles_of_eval fun turns => by simp [step, stepEval, Panel.step]
    | false =>
      -- the read of the fetch and the move of the counter are in order, whatever is fetched
      refine (settles_perform core.fetch.2 ignore core.fetch.1 core.regs.pc).of_eval fun turns => ?_
      simp [step, Core.fetch, Core.jump]

end LC3.Checked
