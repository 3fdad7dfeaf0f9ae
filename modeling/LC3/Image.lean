import LC3.Core
import LC3.LoadError

/-!
# Images

A program image is a list of words and the address of the first, its origin.
In a file both are big-endian: two bytes of origin, then two bytes for each
word. Loading puts the words at their addresses and nothing else: words past
the end of memory and an odd last byte are dropped, and an image that cannot
be read changes nothing.
-/

namespace LC3

/-- Words for consecutive addresses from `origin`. -/
structure Image where
  origin : Word
  words : List Word
  deriving DecidableEq, Repr

/-- What a reader gets out of a stream: all bytes up to its end, or up to a
failure. -/
structure ByteStream where
  bytes : ByteArray
  failure : Option IOFailure := none

namespace Image

/-- Reads the bytes of an image; `none` if they end before the origin is
complete. -/
def ofBytes? (bytes : ByteArray) : Option Image :=
  if h : 2 ≤ bytes.size then
    some {
      origin := .ofBytes bytes[0] bytes[1]
      words := List.ofFn fun i : Fin (bytes.size / 2 - 1) =>
        have := i.isLt
        .ofBytes bytes[2 * i.val + 2] bytes[2 * i.val + 3] }
  else none

def ofStream (s : ByteStream) : Except LoadError Image :=
  match s.failure with
  | some cause => .error (.unread none cause)
  | none =>
    match ofBytes? s.bytes with
    | some image => .ok image
    | none => .error (.truncated none)

/-- Reads the file at `path` as an image, given what opening it answered. -/
def ofFile (path : String) (opened : Except IOFailure ByteStream) : Except LoadError Image :=
  match opened with
  | .error cause => .error (.unopened path cause)
  | .ok s => (ofStream s).mapError (.inFile path)

/-- Whether the image has a word for address `a`. -/
def Covers (image : Image) (a : Word) : Prop :=
  image.origin.toNat ≤ a.toNat ∧ a.toNat - image.origin.toNat < image.words.length

instance (image : Image) (a : Word) : Decidable (image.Covers a) :=
  inferInstanceAs (Decidable (_ ∧ _))

/-- The word that the image has for an address it covers. -/
def wordAt (image : Image) (a : Word) (h : image.Covers a) : Word :=
  image.words.get ⟨a.toNat - image.origin.toNat, h.2⟩

end Image

def Memory.place (m : Memory) (image : Image) : Memory := m.fill image.origin.toNat image.words

/-- An image determines the words it covers and leaves all others. This one
equation stands for the loop that fills memory; nothing about images looks at
`fill` again. -/
theorem Memory.peek_place (m : Memory) (image : Image) (a : Word) :
    (m.place image).peek a = if h : image.Covers a then image.wordAt a h else m.peek a :=
  Memory.peek_fill m image.origin.toNat image.words a

/-- Places an image, if there is one, and answers its origin. -/
def Core.load {κ : Type} (c : Core κ) (image : Except LoadError Image) :
    Except LoadError Word × Core κ :=
  match image with
  | .ok image => (.ok image.origin, { c with mem := c.mem.place image })
  | .error e => (.error e, c)

end LC3
