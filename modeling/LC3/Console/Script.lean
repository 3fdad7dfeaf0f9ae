import LC3.Console

/-!
# Scripted input

A console in memory: a queue of input bytes and the bytes written so far.
Reading past the end of the script finds nothing, and nothing is lost by
trying.
-/

namespace LC3

/-- Unread input and output of a scripted console. -/
structure Script where
  input : List UInt8 := []
  output : Array UInt8 := #[]
  deriving DecidableEq, Repr

namespace Script

def ofInput (bytes : List UInt8) : Script := { input := bytes }

def push (s : Script) (bytes : List UInt8) : Script := { s with input := s.input ++ bytes }

/-- The output written so far, and the console with it taken away. -/
def takeOutput (s : Script) : Array UInt8 × Script := (s.output, { s with output := #[] })

instance : Console Script where
  keyReady s := (!s.input.isEmpty, s)
  readByte? s :=
    match s.input with
    | [] => none
    | b :: rest => some (b, { s with input := rest })
  writeByte b s := { s with output := s.output.push b }
  flush s := s

/-- A script has a key as long as it has a byte, and asking takes none. -/
@[simp] theorem keyReady_eq (s : Script) : Console.keyReady s = (!s.input.isEmpty, s) := rfl

@[simp] theorem flush_eq (s : Script) : Console.flush s = s := rfl

/-- A script never gets more bytes by itself, so a read of an empty one would
wait for ever. -/
theorem readByte?_eq_none_iff {s : Script} : Console.readByte? s = none ↔ s.input = [] := by
  cases h : s.input <;> simp [Console.readByte?, h]

theorem readByte?_eq_some_iff {s s' : Script} {b : UInt8} :
    Console.readByte? s = some (b, s') ↔ s.input = b :: s'.input ∧ s'.output = s.output := by
  obtain ⟨_ | ⟨c, rest⟩, output⟩ := s
  · simp [Console.readByte?]
  · obtain ⟨input', output'⟩ := s'
    simp [Console.readByte?]
    grind

/-- The question for a key is a promise: if it is answered with yes, the next
read does not wait. -/
theorem readByte?_of_keyReady {s : Script} (h : (Console.keyReady s).1 = true) :
    ∃ r, Console.readByte? (Console.keyReady s).2 = some r := by
  refine Option.ne_none_iff_exists'.1 fun hnone => ?_
  rw [keyReady_eq] at h hnone
  rw [readByte?_eq_none_iff.1 hnone] at h
  cases h

@[simp] theorem input_writeAll (bytes : List UInt8) (s : Script) :
    (Console.writeAll bytes s).input = s.input := by
  induction bytes generalizing s with
  | nil => rfl
  | cons b bytes ih => rw [Console.writeAll_cons, ih]; rfl

@[simp] theorem output_writeAll (bytes : List UInt8) (s : Script) :
    (Console.writeAll bytes s).output = s.output ++ bytes := by
  induction bytes generalizing s with
  | nil => simp
  | cons b bytes ih =>
    rw [Console.writeAll_cons, ih]
    show s.output.push b ++ bytes = _
    simp

end Script

end LC3
