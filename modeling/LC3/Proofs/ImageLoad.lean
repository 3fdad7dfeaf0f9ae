import LC3.Console.Script
import LC3.Machine
import LC3.Proofs.Overlay

/-!
# What a load does

A load reads a stream to its end before it looks at the first byte. So a
stream that fails, or that ends before the origin is complete, has changed
nothing, however much of an image came before. What comes of any other stream
is said here byte by byte: the origin is the number that the first two bytes
stand for, and the words behind it go to the addresses from there up to the
end of the stream or of memory, whichever is first (`Places`).

> `spelled_of_ofBytes?`: the image that is read has the numbers that the
> bytes stand for;
> `places_image`: what a load answers and leaves, for every stream and every
> file.
-/

namespace LC3

namespace Word

/-- Two bytes put together are a number in base 256, the high one first. -/
theorem toNat_ofBytes (hi lo : UInt8) : (ofBytes hi lo).toNat = 256 * hi.toNat + lo.toNat := by
  have hlo : lo.toBitVec.toNat < 2 ^ 8 := lo.toBitVec.isLt
  rw [ofBytes, BitVec.toNat_append, ← Nat.shiftLeft_add_eq_or_of_lt hlo, Nat.shiftLeft_eq,
    Nat.mul_comm]
  rfl

/-- The number of the word is what the bytes at `i` and `i + 1` stand for,
the high one first. -/
def SpelledAt (bytes : ByteArray) (i : Nat) (w : Word) : Prop :=
  ∃ hi lo, bytes.data[i]? = some hi ∧ bytes.data[i + 1]? = some lo ∧
    w.toNat = 256 * hi.toNat + lo.toNat

/-- Two bytes of an array spell the word that the program makes of them. -/
theorem spelledAt_ofBytes {bytes : ByteArray} {i : Nat} (h : i + 1 < bytes.size) :
    SpelledAt bytes i (ofBytes bytes[i] bytes[i + 1]) :=
  ⟨bytes[i], bytes[i + 1], Array.getElem?_eq_getElem (Nat.lt_of_succ_lt h),
    Array.getElem?_eq_getElem h, toNat_ofBytes _ _⟩

/-- Bytes say one word at most. This is what makes the statements about loads
exact: there is no other memory that they allow. -/
theorem SpelledAt.unique {bytes : ByteArray} {i : Nat} {v w : Word} (hv : SpelledAt bytes i v)
    (hw : SpelledAt bytes i w) : v = w := by
  obtain ⟨hi, lo, hhi, hlo, hnum⟩ := hv
  obtain ⟨hi', lo', hhi', hlo', hnum'⟩ := hw
  obtain rfl := Option.some.inj (hhi.symm.trans hhi')
  obtain rfl := Option.some.inj (hlo.symm.trans hlo')
  exact BitVec.eq_of_toNat_eq (hnum.trans hnum'.symm)

end Word

namespace Image

/-- Without two bytes there is no origin, and an origin is all that an image
needs. -/
theorem ofBytes?_eq_none_iff {bytes : ByteArray} : ofBytes? bytes = none ↔ bytes.size < 2 := by
  unfold ofBytes?
  split
  next h => exact ⟨nofun, fun hlt => absurd h (Nat.not_le_of_lt hlt)⟩
  next h => exact ⟨fun _ => Nat.lt_of_not_le h, fun _ => rfl⟩

/-- **The image that is read has the numbers that the bytes stand for.** -/
theorem spelled_of_ofBytes? {bytes : ByteArray} {image : Image} (h : ofBytes? bytes = some image) :
    Word.SpelledAt bytes 0 image.origin ∧ image.words.length = (bytes.size - 2) / 2 ∧
      ∀ i w, image.words[i]? = some w → Word.SpelledAt bytes (2 + 2 * i) w := by
  unfold ofBytes? at h
  split at h
  next hsize =>
    obtain rfl := Option.some.inj h
    refine ⟨Word.spelledAt_ofBytes (by omega), ?_, ?_⟩
    · rw [List.length_ofFn]
      omega
    · intro i w hw
      rw [List.getElem?_ofFn] at hw
      split at hw
      next hi =>
        obtain rfl := Option.some.inj hw
        rw [Nat.add_comm 2]
        exact Word.spelledAt_ofBytes (by omega)
      next => cases hw
  next => cases h

end Image

namespace ImageLoad

/-- How many words of the stream have an address. -/
def fitting (bytes : ByteArray) (origin : Word) : Nat :=
  min ((bytes.size - 2) / 2) (65536 - origin.toNat)

/-- The stream has a word for the address. -/
def Fills (bytes : ByteArray) (origin a : Word) : Prop :=
  origin.toNat ≤ a.toNat ∧ a.toNat < origin.toNat + fitting bytes origin

/-- The first two bytes are the origin, each address that the stream fills
has the word that the bytes say, and every other one has the word it had. -/
structure Places (bytes : ByteArray) (origin : Word) (mem mem' : Memory) : Prop where
  header : Word.SpelledAt bytes 0 origin
  filled : ∀ a, Fills bytes origin a →
    Word.SpelledAt bytes (2 + 2 * (a.toNat - origin.toNat)) (mem'.peek a)
  rest : ∀ a, ¬ Fills bytes origin a → mem'.peek a = mem.peek a

variable {κ : Type}

/-- What the load of a stream into `c`, which errors call `path`, answers and
leaves. -/
structure Loads (path : Option String) (s : ByteStream) (c : Core κ)
    (r : Except LoadError Word × Core κ) : Prop where
  frame : r.2 = { c with mem := r.2.mem }
  unread : ∀ cause, s.failure = some cause → r.1 = .error (.unread path cause)
  truncated : s.failure = none → s.bytes.size < 2 → r.1 = .error (.truncated path)
  kept : ∀ e, r.1 = .error e → r.2 = c
  placed : s.failure = none → 2 ≤ s.bytes.size →
    ∃ origin, r.1 = .ok origin ∧ Places s.bytes origin c.mem r.2.mem

theorem fills_iff_covers {bytes : ByteArray} {image : Image}
    (hlength : image.words.length = (bytes.size - 2) / 2) {a : Word} :
    Fills bytes image.origin a ↔ image.Covers a := by
  have ha := a.isLt
  unfold Fills fitting Image.Covers
  omega

/-- The words of an image that was read from bytes are placed where the bytes
belong. -/
theorem places_place (mem : Memory) {bytes : ByteArray} {image : Image}
    (h : Image.ofBytes? bytes = some image) : Places bytes image.origin mem (mem.place image) := by
  obtain ⟨hheader, hlength, hwords⟩ := Image.spelled_of_ofBytes? h
  refine ⟨hheader, ?_, ?_⟩
  · intro a ha
    have hcovers := (fills_iff_covers hlength).1 ha
    rw [Memory.peek_place_of_covers mem hcovers]
    exact hwords _ _ (List.getElem?_eq_getElem hcovers.2)
  · intro a ha
    exact Memory.peek_place_of_not_covers mem fun hcovers =>
      ha ((fills_iff_covers hlength).2 hcovers)

theorem load_mapError (c : Core κ) (image : Except LoadError Image) (f : LoadError → LoadError) :
    c.load (image.mapError f) = ((c.load image).1.mapError f, (c.load image).2) := by
  cases image <;> rfl

/-- **The load of a stream.** It fails before anything is placed, or it
places the whole image. -/
theorem loads_ofStream (c : Core κ) (s : ByteStream) :
    Loads none s c (c.load (Image.ofStream s)) := by
  obtain ⟨bytes, failure⟩ := s
  unfold Image.ofStream
  cases failure with
  | some cause =>
    -- the stream broke, so what it gave before is not looked at
    refine ⟨rfl, ?_, nofun, fun _ _ => rfl, nofun⟩
    intro cause' hcause
    cases hcause
    rfl
  -- the stream ended: it has an image, or it is too short for one
  | none =>
    cases himage : Image.ofBytes? bytes with
    | none =>
      have hshort := Image.ofBytes?_eq_none_iff.1 himage
      refine ⟨rfl, nofun, fun _ _ => rfl, fun _ _ => rfl, ?_⟩
      exact fun _ hsize => absurd hsize (Nat.not_le_of_lt hshort)
    | some image =>
      refine ⟨rfl, nofun, ?_, nofun, fun _ _ => ⟨image.origin, rfl, places_place c.mem himage⟩⟩
      intro _ hshort
      rw [Image.ofBytes?_eq_none_iff.2 hshort] at himage
      cases himage

/-- The same stream out of a file. The errors name the file, and apart from
that the file makes no difference. -/
theorem loads_ofFile (c : Core κ) (path : String) (s : ByteStream) :
    Loads (some path) s c (c.load (Image.ofFile path (.ok s))) := by
  have h := loads_ofStream c s
  show Loads (some path) s c (c.load ((Image.ofStream s).mapError (.inFile path)))
  rw [load_mapError]
  refine ⟨h.frame, ?_, ?_, ?_, ?_⟩
  · intro cause hcause
    rw [h.unread cause hcause]
    rfl
  · intro hend hshort
    rw [h.truncated hend hshort]
    rfl
  · intro e he
    cases hanswer : (c.load (Image.ofStream s)).1 with
    | error e' => exact h.kept e' hanswer
    | ok origin =>
      rw [hanswer] at he
      cases he
  · intro hend hsize
    obtain ⟨origin, hanswer, hplaces⟩ := h.placed hend hsize
    rw [hanswer]
    exact ⟨origin, rfl, hplaces⟩

/-- An error out of a file names the file, whether or not the file could be
opened. -/
theorem path_of_load_ofFile (c : Core κ) {path : String} {opened : Except IOFailure ByteStream}
    {e : LoadError} (h : (c.load (Image.ofFile path opened)).1 = .error e) :
    e.path = some path := by
  cases opened with
  | error cause =>
    obtain rfl := Except.error.inj h
    rfl
  | ok s =>
    obtain ⟨-, hunread, htruncated, -, hplaced⟩ := loads_ofFile c path s
    cases hfailure : s.failure with
    | some cause =>
      obtain rfl := Except.error.inj ((hunread cause hfailure).symm.trans h)
      rfl
    | none =>
      by_cases hshort : s.bytes.size < 2
      · obtain rfl := Except.error.inj ((htruncated hfailure hshort).symm.trans h)
        rfl
      · obtain ⟨origin, hok, -⟩ := hplaced hfailure (Nat.le_of_not_lt hshort)
        cases hok.symm.trans h

/-- What is written down as bytes is what a load of the bytes leaves. -/
theorem load_toStream (c : Core κ) (image : Image) {i : Nat} {a w : Word}
    (ha : a.toNat = image.origin.toNat + i) (hw : image.words[i]? = some w) :
    (c.load (Image.ofStream image.toStream)).1 = .ok image.origin ∧
      (c.load (Image.ofStream image.toStream)).2.mem.peek a = w := by
  have hstream : Image.ofStream image.toStream = .ok image := image.carries_toStream
  rw [hstream]
  refine ⟨rfl, ?_⟩
  obtain ⟨hi, hget⟩ := List.getElem?_eq_some_iff.1 hw
  have hcovers : image.Covers a := by
    unfold Image.Covers
    omega
  refine (Memory.peek_place_of_covers c.mem hcovers).trans ?_
  have hindex : a.toNat - image.origin.toNat = i := by omega
  simp only [Image.wordAt, List.get_eq_getElem, hindex, hget]

/-- **A load places exactly the image, or nothing.** Over every memory, the
load of a stream answers the failure of the stream, or that the origin is
missing, and leaves memory as it was; or it answers the origin, and the words
are where they belong and nowhere else. The load of a file does the same with
what is in the file, and each of its errors names the file. In a machine
nothing but memory changes. So the words of an image that is written down as
bytes are what a load of the bytes leaves. -/
theorem places_image (c : Core κ) :
    (∀ s, Loads none s c (c.load (Image.ofStream s))) ∧
    (∀ path s, Loads (some path) s c (c.load (Image.ofFile path (.ok s)))) ∧
    (∀ path cause,
      c.load (Image.ofFile path (.error cause)) = (.error (.unopened path cause), c)) ∧
    (∀ path opened e, (c.load (Image.ofFile path opened)).1 = .error e → e.path = some path) ∧
    (∀ (m : Machine κ) image, m.toCore = c →
      m.load image = ((c.load image).1, { m with toCore := (c.load image).2 })) ∧
    ∀ (image : Image) (i : Nat) (a w : Word), a.toNat = image.origin.toNat + i →
      image.words[i]? = some w → (c.load (Image.ofStream image.toStream)).1 = .ok image.origin ∧
        (c.load (Image.ofStream image.toStream)).2.mem.peek a = w := by
  refine ⟨loads_ofStream c, loads_ofFile c, ?_, ?_, ?_, ?_⟩
  · intro path cause
    rfl
  · intro path opened e h
    exact path_of_load_ofFile c h
  · intro m image h
    rw [← h]
    rfl
  · intro image i a w ha hw
    exact load_toStream c image ha hw

/-- Three words and an odd byte, for an origin with two addresses left. -/
def overfull : ByteStream := { bytes := ⟨#[0xFF, 0xFE, 0, 1, 0, 2, 0, 3, 9]⟩ }

/-- The first two words are placed, and nothing goes round to address 0. If
the stream breaks after the last byte, nothing is placed at all. -/
theorem places_image_overfull :
    let c := (Machine.initial ({} : Script)).toCore
    let broken := { overfull with failure := some (.other "stream broke") }
    (c.load (Image.ofStream overfull)).1 = .ok 0xFFFE ∧
    (c.load (Image.ofStream overfull)).2.mem.peek 0xFFFE = 1 ∧
    (c.load (Image.ofStream overfull)).2.mem.peek 0xFFFF = 2 ∧
    (c.load (Image.ofStream overfull)).2.mem.peek 0 = 0 ∧
    (c.load (Image.ofStream broken)).1 = .error (.unread none (.other "stream broke")) ∧
    (c.load (Image.ofStream broken)).2 = c := by
  intro c broken
  obtain ⟨hstreams, -⟩ := places_image c
  obtain ⟨origin, hanswer, hheader, hfilled, hrest⟩ := (hstreams overfull).placed rfl (by decide)
  have horigin : Word.SpelledAt overfull.bytes 0 0xFFFE := ⟨0xFF, 0xFE, rfl, rfl, rfl⟩
  have hfirst : Word.SpelledAt overfull.bytes 2 1 := ⟨0, 1, rfl, rfl, rfl⟩
  have hsecond : Word.SpelledAt overfull.bytes 4 2 := ⟨0, 2, rfl, rfl, rfl⟩
  obtain rfl := hheader.unique horigin
  have hbroken := (hstreams broken).unread (.other "stream broke") rfl
  refine ⟨hanswer, ?_, ?_, ?_, hbroken, (hstreams broken).kept _ hbroken⟩
  · exact (hfilled 0xFFFE (by unfold Fills; decide)).unique hfirst
  · exact (hfilled 0xFFFF (by unfold Fills; decide)).unique hsecond
  · exact (hrest 0 (by unfold Fills; decide)).trans (Memory.peek_zeroed 0)

end ImageLoad

end LC3
