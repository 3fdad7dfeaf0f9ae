import LC3.Console
import LC3.Console.Stdout

/-!
# Piped streams

A console over a stream that arrives on its own: bytes that have arrived wait
in `stream` until the console moves them to `pending`, and `closed` says that
no more will come. The machine reads `pending` first and `stream` after it,
so what it reads does not depend on when bytes are moved (`unread_pump`). A
closed stream that is used up reads as `Pipe.endOfInput` for ever.

What is written goes to the standard output of the process, which flushes
before a read. The process prints there on its own account as well, so a
console keeps apart what has been written through it (`output`) and what
standard output has come to (`stdout`).
-/

namespace LC3

/-- A console over an input stream and the standard output of the process. -/
structure Pipe where
  /-- Bytes taken from the stream and not read yet. -/
  pending : List UInt8 := []
  /-- Bytes that have arrived and not been taken yet. -/
  stream : List UInt8 := []
  /-- Whether the stream has ended. -/
  closed : Bool := false
  /-- The bytes that have been written through the console. -/
  output : Array UInt8 := #[]
  stdout : Stdout := {}
  deriving DecidableEq, Repr

namespace Pipe

/-- What a read past the end of the stream gives. -/
def endOfInput : UInt8 := 0xFF

def ofBytes (bytes : List UInt8) : Pipe := { stream := bytes, closed := true }

def arrive (p : Pipe) (bytes : List UInt8) : Pipe := { p with stream := p.stream ++ bytes }

def hangUp (p : Pipe) : Pipe := { p with closed := true }

/-- The bytes that reads will give before they have to wait or find the end. -/
def unread (p : Pipe) : List UInt8 := p.pending ++ p.stream

/-- Moves what has arrived to where reads look first. -/
def pump (p : Pipe) : Pipe :=
  if p.stream.isEmpty then p else { p with pending := p.pending ++ p.stream, stream := [] }

/-- Takes over the terminal, which a stream does not have. -/
def attach (p : Pipe) : Pipe := p

/-- Hands on what standard output holds. -/
def flush (p : Pipe) : Pipe := { p with stdout := p.stdout.flush }

/-- Gives the console up, which hands on what standard output holds for the
last time. -/
def drop (p : Pipe) : Pipe := p.flush

/-- Prints a text of the process itself. The console it is printed over has
not written it. -/
def print (text : String) (p : Pipe) : Pipe := { p with stdout := p.stdout.print text }

instance : Console Pipe where
  keyReady p :=
    let p := p.attach.pump
    (!p.pending.isEmpty, p)
  readByte? p :=
    let p := p.attach.flush
    match p.pending with
    | b :: rest => some (b, { p with pending := rest })
    | [] =>
      match p.stream with
      | b :: rest => some (b, { p with stream := rest })
      | [] => if p.closed then some (endOfInput, p) else none
  writeByte b p := { p with output := p.output.push b, stdout := p.stdout.writeByte b }
  flush p := p.flush

/-- A pump moves what has arrived to where it is read from. Nothing is lost
by it, and nothing else is changed. -/
@[simp] theorem unread_pump (p : Pipe) : p.pump.unread = p.unread := by
  unfold pump unread
  split <;> simp

@[simp] theorem stream_pump (p : Pipe) : p.pump.stream = [] := by
  unfold pump
  split <;> simp_all

@[simp] theorem closed_pump (p : Pipe) : p.pump.closed = p.closed := by
  unfold pump
  split <;> rfl

@[simp] theorem output_pump (p : Pipe) : p.pump.output = p.output := by
  unfold pump
  split <;> rfl

@[simp] theorem stdout_pump (p : Pipe) : p.pump.stdout = p.stdout := by
  unfold pump
  split <;> rfl

@[simp] theorem attach_eq (p : Pipe) : p.attach = p := rfl

@[simp] theorem unread_arrive (p : Pipe) (bytes : List UInt8) :
    (p.arrive bytes).unread = p.unread ++ bytes := by simp [arrive, unread]

/-- A key is ready exactly when a byte is unread, wherever it is. -/
theorem keyReady_eq (p : Pipe) : Console.keyReady p = (!p.unread.isEmpty, p.pump) := by
  have h : p.pump.pending = p.unread := by
    have := unread_pump p
    rwa [unread, stream_pump, List.append_nil] at this
  show (!p.pump.pending.isEmpty, p.pump) = _
  rw [h]

/-- A read takes the first unread byte from where it is, and standard output
is flushed by then. -/
theorem readByte?_of_unread {p : Pipe} {b : UInt8} {rest : List UInt8} (h : p.unread = b :: rest) :
    ∃ p', Console.readByte? p = some (b, p') ∧ p'.unread = rest ∧ p'.closed = p.closed ∧
      p'.output = p.output ∧ p'.stdout = p.stdout.flush := by
  obtain ⟨pending, stream, closed, output, stdout⟩ := p
  cases pending with
  | cons c pending =>
    simp only [unread, List.cons_append, List.cons.injEq] at h
    obtain ⟨rfl, rfl⟩ := h
    exact ⟨_, rfl, rfl, rfl, rfl, rfl⟩
  | nil =>
    simp only [unread, List.nil_append] at h
    subst h
    exact ⟨_, rfl, rfl, rfl, rfl, rfl⟩

/-- With nothing unread a read gives the end of input, or waits if the stream
is open. -/
theorem readByte?_of_unread_nil {p : Pipe} (h : p.unread = []) :
    Console.readByte? p = if p.closed then some (endOfInput, p.flush) else none := by
  obtain ⟨pending, stream, closed, output, stdout⟩ := p
  simp only [unread, List.append_eq_nil_iff] at h
  obtain ⟨rfl, rfl⟩ := h
  rfl

/-- Whatever a read gives, it takes nothing from the output and flushes, and
it does so before it looks at the input: a program that waits has shown what
it had to say. -/
theorem output_of_readByte? {p p' : Pipe} {b : UInt8} (h : Console.readByte? p = some (b, p')) :
    p'.output = p.output ∧ p'.stdout = p.stdout.flush := by
  cases hunread : p.unread with
  | cons c rest =>
    obtain ⟨q, hread, -, -, houtput, hstdout⟩ := readByte?_of_unread hunread
    cases hread.symm.trans h
    exact ⟨houtput, hstdout⟩
  | nil =>
    rw [readByte?_of_unread_nil hunread] at h
    split at h
    · cases h
      exact ⟨rfl, rfl⟩
    · cases h

end Pipe

end LC3
