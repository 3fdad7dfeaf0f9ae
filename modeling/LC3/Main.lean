import LC3.Command.Execution

/-!
# The program

Gives the library the arguments, files and streams of the process, and leaves
with the exit that it answers. Input is read a byte at a time, when the
machine has to wait for it. A machine that looks whether there is a key must
not wait: from then on a task of its own gathers what arrives.
-/

namespace LC3.Main

def failureOf : IO.Error → IOFailure
  | .noFileOrDirectory .. => .noEntry
  | .inappropriateType _ 20 _ => .notDirectory
  | .inappropriateType _ 21 _ => .isDirectory
  | .invalidArgument _ 36 _ => .nameTooLong
  | .permissionDenied _ number text =>
    .other (text ++ " (os error " ++ toString number.toNat ++ ")")
  | e => .other (toString e)

def files : FileSystem IO where
  openFile path := do
    match ← (IO.FS.Handle.mk path .read).toBaseIO with
    | .error e => return .error (failureOf e)
    | .ok handle =>
      match ← handle.readBinToEnd.toBaseIO with
      | .ok bytes => return .ok { bytes }
      | .error e => return .ok { bytes := .empty, failure := some (failureOf e) }
  isPresent path := (System.mkFilePath [path]).pathExists
  isDirectory path := (System.mkFilePath [path]).isDir
  names path := do
    match ← (System.mkFilePath [path]).readDir.toBaseIO with
    | .ok entries => return .ok (entries.toList.map (·.fileName))
    | .error e => return .error (failureOf e)

/-- A piped console that notes when it was asked for a key and had none. -/
structure Watched where
  pipe : Pipe
  asked : Bool := false

instance : Console Watched where
  keyReady w :=
    match Console.keyReady w.pipe with
    | (ready, pipe) => (ready, { pipe, asked := w.asked || !ready })
  readByte? w := (Console.readByte? w.pipe).map fun (b, pipe) => (b, { w with pipe })
  writeByte b w := { w with pipe := Console.writeByte b w.pipe }
  flush w := { w with pipe := Console.flush w.pipe }

/-- What has arrived on a stream and is not taken yet. -/
structure Arrived where
  bytes : Array UInt8 := #[]
  ended : Bool := false

/-- What a read brought: nothing at all means that the stream ended. -/
def Arrived.ofRead : Except IO.Error ByteArray → Arrived
  | .ok bytes => { bytes := bytes.data, ended := bytes.isEmpty }
  | .error _ => { ended := true }

/-- Gathers what arrives on a stream, until it ends. -/
partial def gather (stream : IO.FS.Stream) (arrived : IO.Ref Arrived) : IO Unit := do
  let brought := Arrived.ofRead (← (stream.read 1).toBaseIO)
  arrived.modify fun before => { bytes := before.bytes ++ brought.bytes, ended := brought.ended }
  unless brought.ended do gather stream arrived

/-- Input of the process, and what a task gathers of it, if there is one. -/
structure Input where
  stream : IO.FS.Stream
  gathered : Option (IO.Ref Arrived) := none

/-- Starts to gather what arrives, if nobody does. -/
def Input.startGathering (input : Input) : IO Input := do
  if input.gathered.isSome then return input
  let arrived ← IO.mkRef {}
  let _ ← IO.asTask (gather input.stream arrived) .dedicated
  return { input with gathered := some arrived }

def Input.take (input : Input) : IO Arrived :=
  match input.gathered with
  | none => return {}
  | some arrived => arrived.modifyGet fun now => (now, { now with bytes := #[] })

/-- Waits until something has arrived or the stream has ended. -/
partial def Input.await (input : Input) : IO Arrived := do
  if input.gathered.isNone then return .ofRead (← (input.stream.read 1).toBaseIO)
  let now ← input.take
  if now.ended || !now.bytes.isEmpty then return now
  IO.sleep 1
  input.await

def Watched.receive (w : Watched) (now : Arrived) : Watched :=
  let pipe := if now.bytes.isEmpty then w.pipe else w.pipe.arrive now.bytes.toList
  { w with pipe := if now.ended then pipe.hangUp else pipe }

/-- Passes on what has left standard output since `written` bytes were passed
on, and answers how many are passed on then. -/
def passOn (output : IO.FS.Stream) (out : Stdout) (written : Nat) : IO Nat := do
  if written < out.sent.size then
    output.write ⟨out.sent.extract written out.sent.size⟩
    output.flush
  return out.sent.size

partial def writeForever (output : IO.FS.Stream) (bytes : ByteArray) : IO Command.Ending := do
  output.write bytes
  writeForever output bytes

/-- Runs a machine to its end, round by round. An instruction that has to
wait for input is carried out again once there is some; what it has written
by then is not written twice. -/
partial def runMachine (input : Input) (output : IO.FS.Stream) (machine : Machine Watched)
    (written : Nat) : IO Command.Ending := do
  let input ← if machine.console.asked then input.startGathering else pure input
  let machine := { machine with console := machine.console.receive (← input.take) }
  let run := machine.run Command.roundLength
  let written ← passOn output run.machine.console.pipe.stdout written
  match run.outcome with
  | .running => runMachine input output run.machine written
  | .starved =>
    let waiting := (machine.run run.completed).machine
    let machine := { waiting with console := waiting.console.receive (← input.await) }
    runMachine input output machine written
  | .endless cycle => writeForever output ⟨cycle.toArray⟩
  | outcome =>
    let _ ← passOn output run.machine.console.pipe.drop.stdout written
    return (Command.Ending.ofOutcome? outcome).getD .halted

end LC3.Main

def main (args : List String) : IO UInt32 := do
  let setting ← IO.getEnv LC3.Command.unknownTrapVariable
  let output ← IO.getStdout
  let start ← LC3.Command.start LC3.Main.files (LC3.Command.findIn LC3.Main.files)
    (LC3.Command.Request.ofArgs args setting) {}
  let ending ← match start with
    | .over result =>
      output.write ⟨result.output.toArray⟩
      pure result.ending
    | .ready machine =>
      let written ← LC3.Main.passOn output machine.console.stdout 0
      let machine : LC3.Machine LC3.Main.Watched :=
        { machine with toCore := { machine.toCore with console := { pipe := machine.console } } }
      LC3.Main.runMachine { stream := ← IO.getStdin } output machine written
  output.flush
  (← IO.getStderr).putStr ending.errorText
  return match ending.exit with
    | .code status => status.toUInt32
    | .abort => 134
