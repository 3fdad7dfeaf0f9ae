import LC3.Console

/-!
# Consoles that keep a record

A console with a record passes every call on to the console inside, and keeps
the calls in the order in which they were made. The machine sees no
difference: it is answered what the console inside answers. A read that has
to wait is kept when it has a byte to give.
-/

namespace LC3

/-- A call that a machine makes of its console. -/
inductive Call where
  /-- Whether a key is ready. -/
  | poll
  | read
  | write (b : UInt8)
  | flush
  deriving DecidableEq, Repr

/-- A console, and the calls that have been made of it. -/
structure Recorder (κ : Type) where
  console : κ
  calls : List Call := []

namespace Recorder

variable {κ : Type} [Console κ]

instance : Console (Recorder κ) where
  keyReady r := ((Console.keyReady r.console).1,
    ⟨(Console.keyReady r.console).2, r.calls ++ [.poll]⟩)
  readByte? r := (Console.readByte? r.console).map fun (b, s) => (b, ⟨s, r.calls ++ [.read]⟩)
  writeByte b r := ⟨Console.writeByte b r.console, r.calls ++ [.write b]⟩
  flush r := ⟨Console.flush r.console, r.calls ++ [.flush]⟩

@[simp] theorem calls_flush (r : Recorder κ) :
    (Console.flush r).calls = r.calls ++ [.flush] := rfl

/-- A read that succeeds is kept in the record. The console inside is the one
that is read. -/
theorem readByte?_eq_some_iff {r r' : Recorder κ} {b : UInt8} :
    Console.readByte? r = some (b, r') ↔
      Console.readByte? r.console = some (b, r'.console) ∧ r'.calls = r.calls ++ [.read] := by
  show (Console.readByte? r.console).map _ = _ ↔ _
  obtain ⟨console', calls'⟩ := r'
  cases Console.readByte? r.console with
  | none => simp
  | some answer => grind

theorem readByte?_eq_none_iff {r : Recorder κ} :
    Console.readByte? r = none ↔ Console.readByte? r.console = none :=
  Option.map_eq_none_iff

@[simp] theorem calls_writeAll (bytes : List UInt8) (r : Recorder κ) :
    (Console.writeAll bytes r).calls = r.calls ++ bytes.map .write := by
  induction bytes generalizing r with
  | nil => simp
  | cons b bytes ih =>
    rw [Console.writeAll_cons, ih]
    show r.calls ++ [.write b] ++ _ = _
    simp

end Recorder

end LC3
