import LC3.Machine

/-!
# What a user does with a machine

A program that holds a machine steps it or runs it, and between that it may
do what it likes: load images, write registers and memory, read memory, bring
input, take output away, and choose what unknown traps do. `Request` lists
all of this. A step and a run answer how the machine stands; a run steps on
until a step does not answer `running`, and one that never gets there has no
answer (`Handle.RunsTo`).

What a request does is said for anything that can be stepped and changed like
a machine (`Handle`), so that two ways to keep the state of a machine can be
compared request by request.
-/

namespace LC3

/-- What a user does to memory and console. -/
inductive Edit (κ : Type) where
  | loadImage (s : ByteStream)
  | loadFile (path : String) (opened : Except IOFailure ByteStream)
  | write (a w : Word)
  /-- A read like that of an instruction: one of the keyboard status register polls. -/
  | read (a : Word)
  /-- Input is brought, or output is taken away. -/
  | console (change : κ → κ)

/-- An image that cannot be read changes nothing. -/
def Edit.apply {κ : Type} [Console κ] (c : Core κ) : Edit κ → Core κ
  | .loadImage s => (c.load (Image.ofStream s)).2
  | .loadFile path opened => (c.load (Image.ofFile path opened)).2
  | .write a w => c.store a w
  | .read a => (c.read a).2
  | .console change => { c with console := change c.console }

/-- What a user can ask of a machine. -/
inductive Request (κ : Type) where
  | step
  | run
  | edit (e : Edit κ)
  /-- Writes to registers, program counter or flag. -/
  | registers (change : Registers → Registers)
  | ignoreUnknownTraps (setting : Bool)

/-- What a user holds a machine by, if the states of the machine are `σ`. -/
structure Handle (σ κ : Type) where
  step : σ → Outcome × σ
  /-- Changes registers, memory and console, and nothing else. -/
  change : (Core κ → Core κ) → σ → σ
  ignoreUnknownTraps : Bool → σ → σ

namespace Handle

variable {σ κ : Type} [Console κ] (H : Handle σ κ)

omit [Console κ] in
/-- A run from `s` comes to an end with the answer `o` and leaves `t`. -/
inductive RunsTo : σ → Outcome → σ → Prop where
  | stop {s : σ} (h : (H.step s).1 ≠ .running) : RunsTo s (H.step s).1 (H.step s).2
  | go {s t : σ} {o : Outcome} (h : (H.step s).1 = .running) (rest : RunsTo (H.step s).2 o t) :
    RunsTo s o t

/-- The request, made at `s`, may answer this and leave `t`. Only a step and
a run have an answer that tells how the machine stands. -/
inductive Does (s : σ) : Request κ → Option Outcome → σ → Prop where
  | step : Does s .step (some (H.step s).1) (H.step s).2
  | run {o : Outcome} {t : σ} (h : H.RunsTo s o t) : Does s .run (some o) t
  | edit (e : Edit κ) : Does s (.edit e) none (H.change (fun c => e.apply c) s)
  | registers (change : Registers → Registers) :
    Does s (.registers change) none (H.change (fun c => { c with regs := change c.regs }) s)
  | ignoreUnknownTraps (setting : Bool) :
    Does s (.ignoreUnknownTraps setting) none (H.ignoreUnknownTraps setting s)

/-- Requests, made one after the other, may lead from one state to the other. -/
inductive Reaches (s : σ) : σ → Prop where
  | refl : Reaches s s
  | next {t u : σ} {request : Request κ} {answer : Option Outcome} (before : Reaches s t)
    (h : H.Does t request answer u) : Reaches s u

end Handle

def Machine.handle {κ : Type} [Console κ] : Handle (Machine κ) κ where
  step := Machine.step
  change f m := { m with toCore := f m.toCore }
  ignoreUnknownTraps setting m := { m with ignoreUnknownTraps := setting }

end LC3
