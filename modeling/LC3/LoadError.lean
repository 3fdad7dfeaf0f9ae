import LC3.Diagnostic

/-!
# Load errors

Why an image cannot be placed into memory, and the failure of the file system
behind it.
-/

namespace LC3

inductive IOFailure where
  | noEntry
  | notDirectory
  | isDirectory
  | nameTooLong
  | other (text : String)
  deriving DecidableEq, Repr

namespace IOFailure

/-- The failure in words, with the number the system gives it. -/
def message : IOFailure → String
  | .noEntry => "No such file or directory (os error 2)"
  | .notDirectory => "Not a directory (os error 20)"
  | .isDirectory => "Is a directory (os error 21)"
  | .nameTooLong => "File name too long (os error 36)"
  | .other text => text

end IOFailure

/-- Why an image is not loaded. The path is absent when the image is a bare
stream. -/
inductive LoadError where
  | unopened (path : String) (cause : IOFailure)
  | unread (path : Option String) (cause : IOFailure)
  /-- The stream ends before the origin is complete. -/
  | truncated (path : Option String)
  deriving DecidableEq, Repr

namespace LoadError

/-- The path with a blank before it, or nothing. -/
def described : Option String → String
  | some path => " " ++ path
  | none => ""

def message : LoadError → String
  | .unopened path _ => "Failed to load image: " ++ path
  | .unread path _ => "Failed to read image" ++ described path
  | .truncated path => "Image" ++ described path ++ " is too short to contain an origin address"

def code : LoadError → String
  | .unopened .. => "load::open"
  | .unread .. => "load::read"
  | .truncated .. => "load::truncated"

def help : LoadError → Option String
  | .unopened .. => some "check that the image file exists and is readable"
  | .unread .. => none
  | .truncated .. =>
    some "images start with a 2-byte big-endian origin, followed by the program words"

def cause : LoadError → Option IOFailure
  | .unopened _ cause => some cause
  | .unread _ cause => some cause
  | .truncated _ => none

def path : LoadError → Option String
  | .unopened path _ => some path
  | .unread path _ => path
  | .truncated path => path

/-- Names the file that a stream came from, if the error does not name one. -/
def inFile (file : String) : LoadError → LoadError
  | .unopened path cause => .unopened path cause
  | .unread path cause => .unread (some (path.getD file)) cause
  | .truncated path => .truncated (some (path.getD file))

def diagnostic (e : LoadError) : Diagnostic where
  message := e.message
  code := e.code
  help := e.help
  source := e.cause.map (·.message)

end LoadError

end LC3
