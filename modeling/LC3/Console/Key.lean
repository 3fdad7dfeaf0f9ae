/-!
# Keys

What a key on a terminal types. A key event gives the bytes that a terminal
would have sent for it: the UTF-8 encoding of a character, the control code
of a letter under CONTROL alone, and one byte each for the four keys that
have one. CONTROL with a small c gives no bytes; it interrupts.
-/

namespace LC3

/-- Keys that are told apart. -/
inductive KeyCode where
  | char (c : Char)
  | enter
  | tab
  | backspace
  | escape
  /-- Any key that types nothing. -/
  | other
  deriving DecidableEq, Repr

/-- The modifier keys held down. -/
structure Modifiers where
  shift : Bool := false
  control : Bool := false
  alt : Bool := false
  super : Bool := false
  hyper : Bool := false
  metaKey : Bool := false
  deriving DecidableEq, Repr

/-- CONTROL and nothing else. -/
def Modifiers.controlOnly : Modifiers := { control := true }

/-- What happened to the key. -/
inductive KeyAction where
  | press
  | autorepeat
  | release
  deriving DecidableEq, Repr

/-- A key, the modifiers held with it and what happened to it. -/
structure KeyEvent where
  code : KeyCode
  modifiers : Modifiers := {}
  action : KeyAction := .press
  deriving DecidableEq, Repr

/-- Position of an ASCII letter in the alphabet, counted from 1, whatever its
case. -/
def controlCode (c : Char) : UInt8 := (c.toLower.toNat - 'a'.toNat + 1).toUInt8

namespace KeyEvent

/-- Whether the event interrupts the program: CONTROL alone with a small c,
not on its release. -/
def interrupts (e : KeyEvent) : Bool :=
  e.action ≠ .release ∧ e.modifiers = .controlOnly ∧ e.code = .char 'c'

/-- The bytes typed by an event that does not interrupt. -/
def bytes (e : KeyEvent) : List UInt8 :=
  match e.action, e.code with
  | .release, _ => []
  | _, .char c =>
    if e.modifiers = .controlOnly ∧ c.isAlpha then [controlCode c] else String.utf8EncodeChar c
  | _, .enter => [0x0A]
  | _, .tab => [0x09]
  | _, .backspace => [0x7F]
  | _, .escape => [0x1B]
  | _, .other => []

/-- Adds what the event types to the input that waits; `none` if it
interrupts. -/
def push? (pending : List UInt8) (e : KeyEvent) : Option (List UInt8) :=
  if e.interrupts then none else some (pending ++ e.bytes)

end KeyEvent

end LC3
