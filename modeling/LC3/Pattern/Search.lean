import LC3.Files
import LC3.Pattern

/-!
# Searching for paths

Finds the paths that a pattern stands for. A piece that is a plain name is
looked up, any other is held against the names in the directory, in ascending
order of their bytes. `.` and `..` are never found in a directory; they are
tried after a plain dot, `..` first, before the names. A directory found by
`**` is searched with the rest of the pattern before what is inside it.

Every step of the search takes a piece of the pattern or goes down one
directory, so the number of pieces and the length of the longest path bound
it.
-/

namespace LC3

/-- A directory that could not be read in a search. -/
structure SearchFailure where
  path : String
  cause : IOFailure
  deriving DecidableEq, Repr

/-- What a search comes upon: paths, and directories it could not look into. -/
abbrev Findings := List (Except SearchFailure String)

namespace Pattern

variable {m : Type → Type} [Monad m]

/-- More directories than a path has room for. -/
def maxDepth : Nat := 4096

/-- A found path; dropped if it has to be a directory and is none. -/
def found (files : FileSystem m) (directoryOnly : Bool) (path : String) : m Findings := do
  if !directoryOnly || (← files.isDirectory path) then return [.ok path] else return []

/-- Goes on at a path that the pieces so far lead to: with the rest of the
pieces, if any. -/
def advance (files : FileSystem m) (directoryOnly : Bool)
    (search : List Part → String → m Findings) (rest : List Part) (path : String) : m Findings :=
  if rest.isEmpty then found files directoryOnly path else search rest path

/-- Holds a piece against the name of a path in a directory, and goes on if
it accepts. -/
def holdName (files : FileSystem m) (directoryOnly : Bool)
    (search : List Part → String → m Findings) (name path : String) : List Part → m Findings
  | [] => return []
  | part :: rest =>
    if part.accepts name then advance files directoryOnly search rest path else return []

/-- Holds the pieces from `part` on against a name in a directory. A `**`
takes a directory as it is, with the rest of the pieces, and what is inside
it. -/
def holdEntry (files : FileSystem m) (directoryOnly : Bool)
    (search : List Part → String → m Findings) (name path : String) (part : Part)
    (rest : List Part) : m Findings := do
  if part = .directories then
    let rest := rest.dropWhile (· = .directories)
    if ← files.isDirectory path then
      let here ← if rest.isEmpty then pure [.ok path]
        else holdName files directoryOnly search name path rest
      return here ++ (← search (.directories :: rest) path)
    else holdName files directoryOnly search name path rest
  else holdName files directoryOnly search name path (part :: rest)

/-- Everything that the pieces stand for from a directory on, within `depth`
steps. -/
def searchFrom (files : FileSystem m) (directoryOnly : Bool) :
    (depth : Nat) → List Part → String → m Findings
  | 0, _, _ => return []
  | _, [], _ => return []
  | depth + 1, part :: rest, path => do
    let search := searchFrom files directoryOnly depth
    match part.literal? with
    | some name =>
      let next := if Path.isCurrent path then name else Path.join path name
      if ← (if name = "." ∨ name = ".." then files.isDirectory path else files.isPresent next) then
        advance files directoryOnly search rest next
      else return []
    | none =>
      if ← files.isDirectory path then
        match ← files.names path with
        | .error cause => return [.error { path, cause }]
        | .ok names =>
          let dots := ["..", "."].filter fun name => part.startsWithDot && part.accepts name
          let above ← dots.mapM fun name =>
            advance files directoryOnly search rest (Path.join path name)
          let inside ← (names.mergeSort fun a b => a ≤ b).mapM fun name =>
            let entry := if Path.isCurrent path then name else Path.join path name
            holdEntry files directoryOnly search name entry part rest
          return above.flatten ++ inside.flatten
      else return []

def search (files : FileSystem m) (p : Pattern) : m Findings :=
  searchFrom files p.directoryOnly (p.parts.length + maxDepth) p.parts
    (if p.rooted then "/" else ".")

end Pattern

end LC3
