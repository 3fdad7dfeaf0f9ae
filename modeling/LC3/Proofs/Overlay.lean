import LC3.Console.Script
import LC3.Machine
import LC3.Proofs.ImageBytes

/-!
# Images laid over each other

Images are loaded one after the other, and a later one goes on top of those
before it. What memory holds in the end is said word by word:

> `overlay`: every address has the word of the last image that covers it, and
> an address that no image covers has the word it had before the first load.

The rest of that theorem is what follows for lists of images: a stream that
carries no image counts for nothing wherever it stands, two neighbours that
have no address in common may change places, and an image may be cut in two
as long as the second part still has an origin. A load places an image
(`load_of_carries`) or does nothing (`load_of_fails`), so these are facts
about `Memory.place`: two images placed apart commute (`place_comm`), and the
words of one image may be placed in two goes (`place_append`).
-/

namespace LC3

namespace Memory

/-- Words for one stretch of addresses may be put there in two goes. If the
first of them runs into the end of memory the second places nothing. -/
theorem fill_append (m : Memory) (a : Nat) (ws₁ ws₂ : List Word) :
    m.fill a (ws₁ ++ ws₂) = (m.fill a ws₁).fill (a + ws₁.length) ws₂ := by
  induction ws₁ generalizing m a with
  | nil => rfl
  | cons w ws ih =>
    have hlength : a + (w :: ws).length = a + 1 + ws.length := by
      rw [List.length_cons, Nat.add_assoc, Nat.add_comm 1]
    rw [hlength, List.cons_append, fill, fill]
    by_cases ha : a < 65536
    · rw [dif_pos ha, dif_pos ha]
      exact ih ⟨m.cells.set a w ha⟩ (a + 1)
    · -- the first stretch is past the end of memory, and so is the second
      rw [dif_neg ha, dif_neg ha]
      cases ws₂ with
      | nil => rfl
      | cons v vs =>
        rw [fill, dif_neg (by omega)]

/-- An image may be cut in two at any word that still has an address, which
is the origin of the second part. -/
theorem place_append (m : Memory) {o : Word} {ws₁ ws₂ : List Word}
    (h : o.toNat + ws₁.length ≤ 65535) :
    m.place ⟨o, ws₁ ++ ws₂⟩ =
      (m.place ⟨o, ws₁⟩).place ⟨.ofNat 16 (o.toNat + ws₁.length), ws₂⟩ := by
  have horigin : (BitVec.ofNat 16 (o.toNat + ws₁.length)).toNat = o.toNat + ws₁.length := by
    rw [BitVec.toNat_ofNat]
    exact Nat.mod_eq_of_lt (by omega)
  show m.fill o.toNat (ws₁ ++ ws₂) = (m.fill o.toNat ws₁).fill _ ws₂
  rw [horigin]
  exact fill_append m o.toNat ws₁ ws₂

/-- An address that an image covers has the word that the image has for it. -/
theorem peek_place_of_covers (m : Memory) {image : Image} {a : Word} (h : image.Covers a) :
    (m.place image).peek a = image.wordAt a h := by
  rw [peek_place, dif_pos h]

theorem peek_place_of_not_covers (m : Memory) {image : Image} {a : Word} (h : ¬ image.Covers a) :
    (m.place image).peek a = m.peek a := by
  rw [peek_place, dif_neg h]

/-- Images that have no address in common may be placed in either order. -/
theorem place_comm (m : Memory) {i j : Image} (h : ∀ a, ¬ (i.Covers a ∧ j.Covers a)) :
    (m.place i).place j = (m.place j).place i := by
  apply ext_peek
  intro a
  -- word by word: at most one of the two covers the address
  by_cases hi : i.Covers a
  · have hj : ¬ j.Covers a := fun hj => h a ⟨hi, hj⟩
    rw [peek_place_of_not_covers _ hj, peek_place_of_covers _ hi, peek_place_of_covers _ hi]
  · rw [peek_place_of_not_covers _ hi]
    by_cases hj : j.Covers a
    · rw [peek_place_of_covers _ hj, peek_place_of_covers _ hj]
    · rw [peek_place_of_not_covers _ hj, peek_place_of_not_covers _ hj,
        peek_place_of_not_covers _ hi]

end Memory

/-- Loads streams one after the other, those that carry no image as well. -/
def Machine.loadAll {κ : Type} (m : Machine κ) (streams : List ByteStream) : Machine κ :=
  streams.foldl (fun m s => (m.load (Image.ofStream s)).2) m

namespace Overlay

open Image (Carries)

/-- The address is from the origin on, before the end of the words and before
that of memory. -/
def Spans (image : Image) (a : Word) : Prop :=
  image.origin.toNat ≤ a.toNat ∧ a.toNat < min (image.origin.toNat + image.words.length) 65536

/-- The stream carries an image that covers the address. -/
def CoveredBy (s : ByteStream) (a : Word) : Prop := ∃ image, Carries s image ∧ Spans image a

/-- The stream carries no image: loading it answers an error. -/
def Fails (s : ByteStream) : Prop := ∃ e, Image.ofStream s = .error e

/-- The image covers the address, and is the last of the streams' images that
does. -/
structure OnTop (streams : List ByteStream) (a : Word) (image : Image) : Prop where
  spans : Spans image a
  last : ∃ before s after, streams = before ++ s :: after ∧ Carries s image ∧
    ∀ t ∈ after, ¬ CoveredBy t a

/-- Covered are the addresses from the origin to the end of the words, as far
as memory goes. -/
theorem covers_iff_spans {image : Image} {a : Word} : image.Covers a ↔ Spans image a := by
  have ha := a.isLt
  unfold Image.Covers Spans
  omega

theorem coveredBy_toStream {image : Image} {a : Word} :
    CoveredBy image.toStream a ↔ Spans image a := by
  have hcarries := image.carries_toStream
  constructor
  · intro ⟨other, hother, hspans⟩
    obtain rfl : image = other := Except.ok.inj (hcarries.symm.trans hother)
    exact hspans
  · intro hspans
    exact ⟨image, hcarries, hspans⟩

theorem carries_or_fails (s : ByteStream) : (∃ image, Carries s image) ∨ Fails s := by
  cases h : Image.ofStream s with
  | ok image => exact .inl ⟨image, h⟩
  | error e => exact .inr ⟨e, h⟩

variable {κ : Type}

/-- A load that succeeds places the image and changes nothing else of the
machine. -/
theorem load_of_carries (m : Machine κ) {s : ByteStream} {image : Image} (h : Carries s image) :
    (m.load (Image.ofStream s)).2 = { m with mem := m.mem.place image } := by
  rw [h]
  rfl

theorem load_of_fails (m : Machine κ) {s : ByteStream} (h : Fails s) :
    (m.load (Image.ofStream s)).2 = m := by
  obtain ⟨e, h⟩ := h
  rw [h]
  rfl

/-- A load leaves every word that its image has no word for. -/
theorem peek_load_of_not_coveredBy (m : Machine κ) {s : ByteStream} {a : Word}
    (h : ¬ CoveredBy s a) : (m.load (Image.ofStream s)).2.mem.peek a = m.mem.peek a := by
  rcases carries_or_fails s with ⟨image, himage⟩ | hfails
  · rw [load_of_carries m himage]
    exact Memory.peek_place_of_not_covers _ fun hcovers =>
      h ⟨image, himage, covers_iff_spans.1 hcovers⟩
  · rw [load_of_fails m hfails]

/-- A load puts the words of its image where they belong. -/
theorem peek_load_of_spans (m : Machine κ) {s : ByteStream} {image : Image} {a : Word}
    (himage : Carries s image) (h : Spans image a) :
    image.words[a.toNat - image.origin.toNat]? =
      some ((m.load (Image.ofStream s)).2.mem.peek a) := by
  have hcovers := covers_iff_spans.2 h
  rw [load_of_carries m himage]
  show _ = some ((m.mem.place image).peek a)
  rw [Memory.peek_place_of_covers _ hcovers]
  exact List.getElem?_eq_getElem hcovers.2

/-! ## Many loads -/

theorem loadAll_append (m : Machine κ) (before after : List ByteStream) :
    m.loadAll (before ++ after) = (m.loadAll before).loadAll after :=
  List.foldl_append

theorem OnTop.cons {streams : List ByteStream} {a : Word} {image : Image}
    (h : OnTop streams a image) (s : ByteStream) : OnTop (s :: streams) a image := by
  obtain ⟨hspans, before, t, after, hstreams, hrest⟩ := h
  exact ⟨hspans, s :: before, t, after, by rw [hstreams, List.cons_append], hrest⟩

/-- **The last image that covers an address decides.** By induction on the
streams, with the machine general: whether an image is on top depends on
those behind it. -/
theorem peek_loadAll (m : Machine κ) (streams : List ByteStream) (a : Word) :
    (∃ image, OnTop streams a image ∧
      image.words[a.toNat - image.origin.toNat]? = some ((m.loadAll streams).mem.peek a)) ∨
    (∀ s ∈ streams, ¬ CoveredBy s a) ∧ (m.loadAll streams).mem.peek a = m.mem.peek a := by
  induction streams generalizing m with
  | nil => exact .inr ⟨nofun, rfl⟩
  | cons s streams ih =>
    -- the rest of the streams is loaded over the machine that the first load leaves
    rcases ih (m.load (Image.ofStream s)).2 with ⟨image, hontop, hword⟩ | ⟨hnone, hpeek⟩
    · exact .inl ⟨image, hontop.cons s, hword⟩
    · -- no later image covers the address, so the first load decides
      have hpeek : (m.loadAll (s :: streams)).mem.peek a = _ := hpeek
      rw [hpeek]
      by_cases hs : CoveredBy s a
      · obtain ⟨image, himage, hspans⟩ := hs
        left
        exact ⟨image, ⟨hspans, [], s, streams, rfl, himage, hnone⟩,
          peek_load_of_spans m himage hspans⟩
      · right
        exact ⟨List.forall_mem_cons.2 ⟨hs, hnone⟩, peek_load_of_not_coveredBy m hs⟩

/-- A stream that carries no image may stand anywhere. -/
theorem loadAll_of_fails (m : Machine κ) (before after : List ByteStream) {s : ByteStream}
    (h : Fails s) : m.loadAll (before ++ s :: after) = m.loadAll (before ++ after) := by
  rw [loadAll_append, loadAll_append]
  show Machine.loadAll ((m.loadAll before).load (Image.ofStream s)).2 after = _
  rw [load_of_fails _ h]

/-- Two loads without a common address, one of which or both may fail, come
to the same in either order. -/
theorem load_comm (m : Machine κ) {s t : ByteStream}
    (h : ∀ a, ¬ (CoveredBy s a ∧ CoveredBy t a)) :
    ((m.load (Image.ofStream s)).2.load (Image.ofStream t)).2 =
      ((m.load (Image.ofStream t)).2.load (Image.ofStream s)).2 := by
  rcases carries_or_fails s with ⟨i, hi⟩ | hs
  · rcases carries_or_fails t with ⟨j, hj⟩ | ht
    · have hapart : ∀ a, ¬ (i.Covers a ∧ j.Covers a) := by
        intro a ⟨hia, hja⟩
        exact h a ⟨⟨i, hi, covers_iff_spans.1 hia⟩, ⟨j, hj, covers_iff_spans.1 hja⟩⟩
      rw [load_of_carries m hi, load_of_carries _ hj, load_of_carries m hj, load_of_carries _ hi]
      exact congrArg (fun mem => { m with mem := mem }) (Memory.place_comm m.mem hapart)
    · rw [load_of_fails _ ht, load_of_fails m ht]
  · rw [load_of_fails m hs, load_of_fails _ hs]

theorem loadAll_swap (m : Machine κ) (before after : List ByteStream) {s t : ByteStream}
    (h : ∀ a, ¬ (CoveredBy s a ∧ CoveredBy t a)) :
    m.loadAll (before ++ s :: t :: after) = m.loadAll (before ++ t :: s :: after) := by
  rw [loadAll_append, loadAll_append]
  show Machine.loadAll (((m.loadAll before).load _).2.load _).2 after = _
  rw [load_comm _ h]
  rfl

/-- The parts come to the whole, whatever streams carry them. -/
theorem loadAll_split (m : Machine κ) {o : Word} {ws₁ ws₂ : List Word} {s s₁ s₂ : ByteStream}
    (hroom : o.toNat + ws₁.length ≤ 65535) (hs : Carries s ⟨o, ws₁ ++ ws₂⟩)
    (hs₁ : Carries s₁ ⟨o, ws₁⟩) (hs₂ : Carries s₂ ⟨.ofNat 16 (o.toNat + ws₁.length), ws₂⟩) :
    m.loadAll [s] = m.loadAll [s₁, s₂] := by
  show (m.load (Image.ofStream s)).2 =
    (Machine.load (m.load (Image.ofStream s₁)).2 (Image.ofStream s₂)).2
  rw [load_of_carries m hs, load_of_carries m hs₁, load_of_carries _ hs₂,
    Memory.place_append m.mem hroom]

/-- **Loading is an overlay in which the last writer wins.** After any list
of loads, some of which may fail, every address has the word of the last
image that covers it, or else its own. So neighbours with no address in
common may change places, a load that fails may be put in or left out
anywhere, and an image may be cut in two where the rest still has an origin. -/
theorem overlay (m : Machine κ) :
    (∀ streams a,
      (∃ image, OnTop streams a image ∧
        image.words[a.toNat - image.origin.toNat]? = some ((m.loadAll streams).mem.peek a)) ∨
      (∀ s ∈ streams, ¬ CoveredBy s a) ∧ (m.loadAll streams).mem.peek a = m.mem.peek a) ∧
    (∀ before s t after, (∀ a, ¬ (CoveredBy s a ∧ CoveredBy t a)) →
      m.loadAll (before ++ s :: t :: after) = m.loadAll (before ++ t :: s :: after)) ∧
    (∀ before s after, Fails s → m.loadAll (before ++ s :: after) = m.loadAll (before ++ after)) ∧
    (∀ (o : Word) (ws₁ ws₂ : List Word) (s s₁ s₂ : ByteStream),
      o.toNat + ws₁.length ≤ 65535 → Carries s ⟨o, ws₁ ++ ws₂⟩ → Carries s₁ ⟨o, ws₁⟩ →
      Carries s₂ ⟨.ofNat 16 (o.toNat + ws₁.length), ws₂⟩ →
      m.loadAll [s] = m.loadAll [s₁, s₂]) := by
  refine ⟨?_, ?_, ?_, ?_⟩
  · exact peek_loadAll m
  · intro before s t after h
    exact loadAll_swap m before after h
  · intro before s after h
    exact loadAll_of_fails m before after h
  · intro o ws₁ ws₂ s s₁ s₂ hroom hs hs₁ hs₂
    exact loadAll_split m hroom hs hs₁ hs₂

/-- An image of three words, whole, in two parts, in two parts the other way
round, and with a stream between the parts that ends before its origin is
complete. -/
theorem overlay_in_parts :
    let m := Machine.initial ({} : Script)
    let whole := Image.toStream ⟨0xFFFD, [1, 2, 3]⟩
    let low := Image.toStream ⟨0xFFFD, [1, 2]⟩
    let high := Image.toStream ⟨0xFFFF, [3]⟩
    let short : ByteStream := { bytes := ⟨#[0x30]⟩ }
    Fails short ∧
    m.loadAll [low, high] = m.loadAll [high, low] ∧
    m.loadAll [low, short, high] = m.loadAll [low, high] ∧
    m.loadAll [whole] = m.loadAll [low, high] := by
  intro m whole low high short
  have hfails : Fails short := ⟨_, rfl⟩
  have hapart : ∀ a, ¬ (CoveredBy low a ∧ CoveredBy high a) := by
    intro a ⟨hlow, hhigh⟩
    have hlow : a.toNat < min (65533 + 2) 65536 := (coveredBy_toStream.1 hlow).2
    have hhigh : 65535 ≤ a.toNat := (coveredBy_toStream.1 hhigh).1
    omega
  obtain ⟨-, hswap, hskip, hcut⟩ := overlay m
  refine ⟨hfails, hswap [] low high [] hapart, hskip [low] short [high] hfails, ?_⟩
  exact hcut 0xFFFD [1, 2] [3] whole low high (by decide) (Image.carries_toStream _)
    (Image.carries_toStream _) (Image.carries_toStream _)

end Overlay

end LC3
