/-!
# Consoles

What the machine may ask of the device it types on and reads from. A console
is a value: every operation gives the console that is left. `keyReady` must
answer at once; `readByte?` stands for a read that waits, and gives `none`
where the wait would not end with what the console holds now.
-/

namespace LC3

/-- The operations of a console with state `κ`. -/
class Console (κ : Type) where
  /-- Whether a byte can be read without waiting. -/
  keyReady : κ → Bool × κ
  /-- The next input byte, or `none` if the reader would have to wait for one. -/
  readByte? : κ → Option (UInt8 × κ)
  writeByte : UInt8 → κ → κ
  /-- Hands on all output written so far. -/
  flush : κ → κ

namespace Console

variable {κ : Type} [Console κ]

def writeAll (bytes : List UInt8) (console : κ) : κ :=
  bytes.foldl (fun c b => writeByte b c) console

@[simp] theorem writeAll_nil (console : κ) : writeAll [] console = console := rfl

@[simp] theorem writeAll_cons (b : UInt8) (bytes : List UInt8) (console : κ) :
    writeAll (b :: bytes) console = writeAll bytes (writeByte b console) := rfl

theorem writeAll_append (xs ys : List UInt8) (console : κ) :
    writeAll (xs ++ ys) console = writeAll ys (writeAll xs console) := by
  simp [writeAll, List.foldl_append]

end Console

end LC3
