import LC3.Checked
import LC3.Console.Key

/-!
# A key with every check written out

What a key event does at a terminal, test by test: its rules are tried in
order, the place of a letter is reckoned in bytes, and a character is written
where there is room for four. An interrupt takes the terminal out of raw
mode, starts a new line and ends the program. A terminal that is not in raw
mode has nothing to leave, and the interrupt is a panic.

`KeyEvent.push?` is the same with its tests left out, and stops short of an
interrupt.
-/

namespace LC3

/-- A terminal, as far as its keys are concerned. -/
structure Terminal where
  /-- Bytes that have been typed and not been read yet. -/
  pending : List UInt8 := []
  /-- Whether each key is handed on at once and shown nowhere. -/
  raw : Bool := false
  output : Array UInt8 := #[]
  deriving DecidableEq, Repr

/-- Where the program stands after a key. -/
inductive KeyEnd where
  | goesOn
  | exits (status : Int)
  deriving DecidableEq, Repr

/-- The status of a program that the user has interrupted. -/
def KeyEnd.interrupted : KeyEnd := .exits (-2)

namespace Checked

def typeBytes (bytes : List UInt8) : Checked Terminal KeyEnd := do
  modify fun t => { t with pending := t.pending ++ bytes }
  return .goesOn

def leaveRaw : Checked Terminal Unit := do
  if (← get).raw then modify fun t => { t with raw := false } else throw .notRaw

/-- What CONTROL with a small c does: the terminal is put back first, and the
status is that of a program that was stopped. -/
def interrupt : Checked Terminal KeyEnd := do
  leaveRaw
  modify fun t => { t with output := t.output.push '\n'.toUInt8 }
  return .interrupted

/-- The place of a letter in the alphabet, reckoned in bytes. -/
def placeOf (c : Char) : Except Panic UInt8 := do
  addByte (← subByte c.toLower.toUInt8 'a'.toUInt8) 1

/-- One event of the keyboard, by the rules in the order in which they are
tried. The release of a key types nothing. -/
def pushKey (e : KeyEvent) : Checked Terminal KeyEnd := do
  if e.action = .release then return .goesOn
  match e.code with
  | .char c =>
    if e.modifiers = .controlOnly ∧ c = 'c' then interrupt
    else if e.modifiers = .controlOnly ∧ c.isAlpha then typeBytes [← placeOf c]
    else typeBytes (← encode c 4)
  | .enter => typeBytes ['\n'.toUInt8]
  | .tab => typeBytes ['\t'.toUInt8]
  | .backspace => typeBytes [0x7F]
  | .escape => typeBytes [0x1B]
  | .other => return .goesOn

/-- One event after another, up to one that ends the program. -/
def pushKeys : List KeyEvent → Checked Terminal KeyEnd
  | [] => return .goesOn
  | e :: events => do
    match ← pushKey e with
    | .goesOn => pushKeys events
    | .exits status => return .exits status

end Checked

end LC3
