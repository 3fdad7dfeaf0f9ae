import LC3.Image

/-!
# Files

What the program asks of a file system, in whatever monad the answers come.
Opening a directory succeeds and reading it fails, as it does on the systems
this runs on.
-/

namespace LC3

/-- The questions a file system answers, each about a path as the user would
write it. -/
structure FileSystem (m : Type → Type) where
  /-- Opens a file and reads it to its end. -/
  openFile : String → m (Except IOFailure ByteStream)
  isPresent : String → m Bool
  isDirectory : String → m Bool
  /-- The names in a directory, in any order. -/
  names : String → m (Except IOFailure (List String))

namespace Path

/-- Where `path` leads when it is looked up from `base`: an absolute path
leads where it says. -/
def join (base path : String) : String :=
  if path.startsWith "/" then path
  else if base.isEmpty || base.endsWith "/" then base ++ path
  else base ++ "/" ++ path

def pieces (path : String) : List String := path.splitOn "/"

/-- Whether a path is another way to write `.`. -/
def isCurrent (path : String) : Bool :=
  match pieces path with
  | [] => false
  | first :: rest => first = "." && rest.all fun piece => piece = "" || piece = "."

end Path

end LC3
