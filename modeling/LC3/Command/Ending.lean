import LC3.Command.Options
import LC3.Console.Stdout
import LC3.Fault
import LC3.LoadError

/-!
# Endings

How a run of the program can end, and what the outside sees of it: the exit,
what has come out of standard output by then, the text on the error stream,
and the report of the failure if there was one.
-/

namespace LC3.Command

/-- How a run of the program ends. -/
inductive Ending where
  | misused (e : UsageError)
  /-- The arguments ask for a text, which is written. -/
  | informed
  | noImage
  | loadFailed (e : LoadError)
  | halted
  | faulted (f : Fault)
  deriving DecidableEq, Repr

/-- What a process leaves to the one that started it. -/
inductive Exit where
  | code (status : Nat)
  | abort
  deriving DecidableEq, Repr

/-- What has come out of standard output when the process has left. Every
exit with a status hands on what is still held; a process that is aborted
takes it along. -/
def Exit.output (out : Stdout) : Exit → List UInt8
  | .code _ => out.flush.sent.toList
  | .abort => out.sent.toList

/-- `text` after `word`, which ends in column 12. -/
def statusLine (word text : String) : String :=
  String.ofList (word.toList.leftpad 12 ' ') ++ " " ++ text ++ "\n"

/-- A text without the spaces at its end. Other white space stays: it is part
of a name. -/
def dropSpaces (text : String) : String :=
  String.ofList (text.toList.reverse.dropWhile (· = ' ')).reverse

namespace Ending

/-- The exit of a run. A program that executes a word which is no instruction
is aborted. -/
def exit : Ending → Exit
  | .informed | .halted => .code 0
  | .noImage => .code 1
  | .misused _ | .loadFailed _ => .code 2
  | .faulted (.unknownTrap ..) => .code 3
  | .faulted (.reservedOpcode ..) => .abort

/-- The report of the failure that ended a run. Spaces at the end of its
message are dropped. -/
def report? (e : Ending) : Option Diagnostic :=
  let diagnostic? := match e with
    | .loadFailed e => some e.diagnostic
    | .faulted f => some f.diagnostic
    | _ => none
  diagnostic?.map fun d => { d with message := dropSpaces d.message }

def usage : String := "lc3vm [IMAGES]..."

def layout (d : Diagnostic) : String :=
  let source := match d.source with
    | some source => "  ╰─▶ " ++ source ++ "\n"
    | none => ""
  let help := match d.help with
    | some help => "  help: " ++ help ++ "\n"
    | none => ""
  d.code ++ "\n\n  × " ++ d.message ++ "\n" ++ source ++ help ++ "\n"

def errorText (e : Ending) : String :=
  match e, e.report? with
  | .noImage, _ => statusLine "Error" "no image file provided" ++ statusLine "Usage" usage
  | .misused e, _ => "error: " ++ e.message ++ "\n\nUsage: " ++ usage ++ "\n"
  | _, some d => layout d
  | _, none => ""

end Ending

end LC3.Command
