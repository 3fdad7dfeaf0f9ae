import LC3.Console.Pipe

/-!
# A stream and its reader

A stream is not read by the console but by a party of its own: it reads the
stream in chunks, passes on every byte of a chunk by itself, and hangs up at
the end. Whatever the console does, the reader may have any number of turns
before it and after it. `Feed` is a console together with its reader,
`Feed.Step` one turn of either, and `Feed.Run` any turns in any order.

The console keeps its end of the stream, so nothing that is passed on is
refused.
-/

namespace LC3

/-- How many bytes one read of a stream brings at most. -/
def chunkSize : Nat := 256

/-- What one read of a stream answers. -/
inductive StreamRead where
  /-- The bytes that were there; none at the end of the stream. -/
  | chunk (bytes : List UInt8) (fits : bytes.length ≤ chunkSize)
  /-- The read came to nothing and is made again. -/
  | interrupted
  | failed
  deriving DecidableEq

namespace StreamRead

def bytes : StreamRead → List UInt8
  | .chunk bytes _ => bytes
  | .interrupted | .failed => []

/-- Whether a stream is not read any more after this answer. -/
def IsLast : StreamRead → Prop
  | .chunk bytes _ => bytes = []
  | .interrupted => False
  | .failed => True

instance : DecidablePred IsLast
  | .chunk bytes _ => inferInstanceAs (Decidable (bytes = []))
  | .interrupted => inferInstanceAs (Decidable False)
  | .failed => inferInstanceAs (Decidable True)

/-- The bytes of a stream that answers its reads like this: what comes before
its end. -/
def content (reads : List StreamRead) : List UInt8 :=
  (reads.takeWhile (¬ IsLast ·)).flatMap bytes

end StreamRead

/-- The party that reads a stream. -/
inductive Reader where
  /-- At a read, with the answers that are still to come. After the last of them it waits. -/
  | reading (reads : List StreamRead)
  /-- Passing on what is left of a chunk. -/
  | sending (rest : List UInt8) (reads : List StreamRead)
  /-- Hung up. -/
  | done
  deriving DecidableEq

namespace Reader

/-- The bytes that the reader has not passed on yet. -/
def unsent : Reader → List UInt8
  | .reading reads => StreamRead.content reads
  | .sending rest reads => rest ++ StreamRead.content reads
  | .done => []

/-- Whether the stream has an end that the reader comes to, or has come to. -/
def Ends : Reader → Prop
  | .reading reads | .sending _ reads => ∃ read ∈ reads, read.IsLast
  | .done => True

/-- One turn of a reader that passes on to `p`; `none` if it waits for a read
or has hung up. -/
def turn? (p : Pipe) : Reader → Option (Reader × Pipe)
  | .reading [] => none
  | .reading (.chunk [] _ :: _) => some (.done, p.hangUp)
  | .reading (.chunk bytes _ :: reads) => some (.sending bytes reads, p)
  | .reading (.interrupted :: reads) => some (.reading reads, p)
  | .reading (.failed :: _) => some (.done, p.hangUp)
  | .sending [] reads => some (.reading reads, p)
  | .sending (b :: rest) reads => some (.sending rest reads, p.arrive [b])
  | .done => none

end Reader

/-- A console over a stream, and the reader of the stream. -/
structure Feed where
  reader : Reader
  pipe : Pipe := {}
  deriving DecidableEq

namespace Feed

/-- Before the first turn, with the answers that the reads of the stream will
give. -/
def start (reads : List StreamRead) : Feed := { reader := .reading reads }

/-- What can happen to a console and its reader, with what a call answers. -/
inductive Event where
  /-- The reader reads, passes on a byte or hangs up. -/
  | reader
  | attach
  | pump
  /-- A pump takes one byte: it takes them by themselves, and the reader may come in between. -/
  | take
  | keyReady (answer : Bool)
  /-- A read that gives a byte of the stream. -/
  | read (b : UInt8)
  /-- A read that finds the stream at its end. -/
  | readEnd (b : UInt8)
  deriving DecidableEq

/-- Whether the event is a read, of either kind. -/
def Event.IsRead : Event → Prop
  | .read _ | .readEnd _ => True
  | .reader | .attach | .pump | .take | .keyReady _ => False

/-- One turn. A read takes place only when it does not have to wait. -/
inductive Step : Feed → Event → Feed → Prop where
  | reader {s : Feed} {r : Reader} {p : Pipe} (h : s.reader.turn? s.pipe = some (r, p)) :
    Step s .reader ⟨r, p⟩
  | attach {s : Feed} : Step s .attach { s with pipe := s.pipe.attach }
  | pump {s : Feed} : Step s .pump { s with pipe := s.pipe.pump }
  | take {s : Feed} {b : UInt8} {rest : List UInt8} (h : s.pipe.stream = b :: rest) :
    Step s .take { s with pipe := { s.pipe with pending := s.pipe.pending ++ [b], stream := rest } }
  | keyReady {s : Feed} {answer : Bool} {p : Pipe} (h : Console.keyReady s.pipe = (answer, p)) :
    Step s (.keyReady answer) { s with pipe := p }
  | read {s : Feed} {b : UInt8} {p : Pipe} (arrived : s.pipe.unread ≠ [])
    (h : Console.readByte? s.pipe = some (b, p)) : Step s (.read b) { s with pipe := p }
  | readEnd {s : Feed} {b : UInt8} {p : Pipe} (usedUp : s.pipe.unread = [])
    (h : Console.readByte? s.pipe = some (b, p)) : Step s (.readEnd b) { s with pipe := p }

/-- Turns one after the other. -/
inductive Run : Feed → List Event → Feed → Prop where
  | nil {s : Feed} : Run s [] s
  | cons {s t u : Feed} {e : Event} {events : List Event} (h : Step s e t)
    (rest : Run t events u) : Run s (e :: events) u

/-- The bytes of the stream that reads have given, in order. -/
def returned : List Event → List UInt8
  | [] => []
  | .read b :: events => b :: returned events
  | _ :: events => returned events

/-! ## Runs -/

theorem Run.append {s t u : Feed} {events more : List Event} (h : Run s events t)
    (h' : Run t more u) : Run s (events ++ more) u := by
  induction h with
  | nil => exact h'
  | cons hstep _ ih => exact .cons hstep (ih h')

theorem Run.split {s u : Feed} {events more : List Event} (h : Run s (events ++ more) u) :
    ∃ t, Run s events t ∧ Run t more u := by
  induction events generalizing s with
  | nil => exact ⟨s, .nil, h⟩
  | cons e events ih =>
    cases h with
    | cons hstep hrest =>
      obtain ⟨t, hevents, hmore⟩ := ih hrest
      exact ⟨t, .cons hstep hevents, hmore⟩

theorem returned_append (events more : List Event) :
    returned (events ++ more) = returned events ++ returned more := by
  induction events with
  | nil => rfl
  | cons e events ih =>
    cases e with
    | read b => exact congrArg (b :: ·) ih
    | reader | attach | pump | take | keyReady | readEnd => exact ih

end Feed

end LC3
