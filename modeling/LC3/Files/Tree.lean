import LC3.Files

/-!
# A file system as a value

A tree of files and directories, given by the absolute path of every file and
of every directory that is to exist without one. Paths are followed piece by
piece: only a directory leads on, empty pieces and `.` stay where they are,
and `..` leads up, at most to the root.

The program asks a `FileSystem` and does not know what is behind it. A tree
stands for the file system of the computer the program runs on where there is
none, as in a run of the command on given files: its answers are those that
the operating system gives. So nothing in the program depends on trees, and
what is proved of the command is proved for every file system.
-/

namespace LC3

/-- What there can be at a place. -/
inductive Node where
  | file (bytes : ByteArray)
  | directory

/-- A tree and the directory that relative paths start from. -/
structure Tree where
  /-- Files and directories by the pieces of their absolute path, later ones first. The
  directories above them are implied. -/
  entries : List (List String × Node) := []
  current : List String := []

namespace Tree

/-- The longest name, in bytes, that a directory is asked for. -/
def maxName : Nat := 255

/-- The longest path, in bytes, that is followed at all. -/
def maxPath : Nat := 4095

/-- Adds a file or directory at a path below a place. A directory that the
path leads through is there afterwards, also where the path leads out of it
again. -/
def insertAt (t : Tree) (place : List String) (node : Node) : List String → Tree
  | [] => { t with entries := (place, node) :: t.entries }
  | piece :: rest =>
    if piece = "" ∨ piece = "." then t.insertAt place node rest
    else if piece = ".." then
      { t with entries := (place, .directory) :: t.entries }.insertAt place.dropLast node rest
    else t.insertAt (place ++ [piece]) node rest

/-- Adds a file or directory at a path that starts from the working
directory. -/
def insert (t : Tree) (path : String) (node : Node) : Tree :=
  t.insertAt t.current node (Path.pieces path)

/-- What is at the place that an absolute list of names leads to. -/
def lookup? (t : Tree) (place : List String) : Option Node :=
  match t.entries.lookup place with
  | some node => some node
  | none =>
    if place.isEmpty || place.isPrefixOf t.current || t.entries.any fun e => place.isPrefixOf e.1
    then some .directory else none

/-- Follows the pieces of a path from a place. -/
def follow (t : Tree) (place : List String) : List String → Except IOFailure (List String × Node)
  | [] =>
    match t.lookup? place with
    | some node => .ok (place, node)
    | none => .error .noEntry
  | piece :: rest =>
    match t.lookup? place with
    | none => .error .noEntry
    | some (.file _) => .error .notDirectory
    | some .directory =>
      if piece = "" ∨ piece = "." then t.follow place rest
      else if piece = ".." then t.follow place.dropLast rest
      else if maxName < piece.utf8ByteSize then .error .nameTooLong
      else t.follow (place ++ [piece]) rest

/-- Follows a path from the root or from the working directory, if it can be
the path of something. -/
def resolve (t : Tree) (path : String) : Except IOFailure (List String × Node) :=
  if path.any (· = '\x00') then .error (.other "file name contained an unexpected NUL byte")
  else if path.isEmpty then .error .noEntry
  else if maxPath < path.utf8ByteSize then .error .nameTooLong
  else t.follow (if path.startsWith "/" then [] else t.current) (Path.pieces path)

/-- The names in the directory at a place, each once. -/
def namesAt (t : Tree) (place : List String) : List String :=
  let below := t.entries.filterMap fun e =>
    if place.isPrefixOf e.1 then (e.1.drop place.length).head? else none
  let above := if place.isPrefixOf t.current then (t.current.drop place.length).head? else none
  (above.toList ++ below).eraseDups

/-- The answers that the tree gives. A directory can be opened; it is the
read that fails. -/
def fileSystem (t : Tree) : FileSystem Id where
  openFile path :=
    match t.resolve path with
    | .error cause => .error cause
    | .ok (_, .file bytes) => .ok { bytes }
    | .ok (_, .directory) => .ok { bytes := .empty, failure := some .isDirectory }
  isPresent path := (t.resolve path).toBool
  isDirectory path := t.resolve path matches .ok (_, .directory)
  names path :=
    match t.resolve path with
    | .error cause => .error cause
    | .ok (_, .file _) => .error .notDirectory
    | .ok (place, .directory) => .ok (t.namesAt place)

end Tree

end LC3
