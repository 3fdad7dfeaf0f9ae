import LC3.Image

/-!
# Images and their bytes

`Image.ofBytes?` reads an image, `Image.toBytes` writes one down, and reading
what was written gives the image back (`ofBytes?_toBytes`). So there is a
stream for every image (`carries_toStream`), and what is said about all
images is said about something that can be loaded.
-/

namespace LC3

namespace Word

/-- A word is its two bytes put together. The proof compares bit by bit. -/
theorem ofBytes_high_low (w : Word) : ofBytes w.highByte w.lowByte = w := by
  apply BitVec.eq_of_getLsbD_eq
  intro i hi
  rw [ofBytes, BitVec.getLsbD_append]
  by_cases hlow : i < 8
  · simp [hlow, lowByte]
  · simp [hlow, highByte, show 8 + (i - 8) = i by omega, show i - 8 < 8 by omega]

/-- The bytes of words, the high one of each first. -/
def bytes (ws : List Word) : List UInt8 := ws.flatMap fun w => [w.highByte, w.lowByte]

theorem length_bytes (ws : List Word) : (bytes ws).length = 2 * ws.length := by
  induction ws with
  | nil => rfl
  | cons w ws ih =>
    show (bytes ws).length + 2 = 2 * (ws.length + 1)
    omega

/-- The bytes of the word at place `i` are at the places `2 * i` and `2 * i +
1`. -/
theorem getElem?_bytes (ws : List Word) (i : Nat) :
    (bytes ws)[2 * i]? = ws[i]?.map highByte ∧ (bytes ws)[2 * i + 1]? = ws[i]?.map lowByte := by
  induction ws generalizing i with
  | nil => exact ⟨rfl, rfl⟩
  | cons w ws ih =>
    cases i with
    | zero => exact ⟨rfl, rfl⟩
    | succ i => exact ih i

end Word

namespace Image

/-- The stream ends without a failure, and its bytes are those of the image.
An odd last byte counts for nothing. -/
def Carries (s : ByteStream) (image : Image) : Prop := ofStream s = .ok image

/-- The origin and the words as bytes. -/
def toBytes (image : Image) : ByteArray := ⟨(Word.bytes (image.origin :: image.words)).toArray⟩

/-- A stream that gives the bytes of the image and then ends. -/
def toStream (image : Image) : ByteStream := { bytes := image.toBytes }

theorem size_toBytes (image : Image) : image.toBytes.size = 2 * image.words.length + 2 := by
  show (Word.bytes (image.origin :: image.words)).length = _
  rw [Word.length_bytes]
  rfl

/-- Two bytes that belong together are a word of the image again. -/
theorem ofBytes_toBytes (image : Image) (i : Nat) (h : 2 * i + 1 < image.toBytes.size) :
    some (Word.ofBytes (image.toBytes[2 * i]) image.toBytes[2 * i + 1]) =
      (image.origin :: image.words)[i]? := by
  have hsize : i < (image.origin :: image.words).length := by
    rw [size_toBytes] at h
    show i < image.words.length + 1
    omega
  obtain ⟨hhigh, hlow⟩ := Word.getElem?_bytes (image.origin :: image.words) i
  rw [List.getElem?_eq_getElem hsize] at hhigh hlow ⊢
  have hhigh' : image.toBytes[2 * i] = ((image.origin :: image.words)[i]).highByte := by
    exact (List.getElem?_eq_some_iff.1 hhigh).2
  have hlow' : image.toBytes[2 * i + 1] = ((image.origin :: image.words)[i]).lowByte := by
    exact (List.getElem?_eq_some_iff.1 hlow).2
  rw [hhigh', hlow', Word.ofBytes_high_low]

/-- **Reading the bytes of an image gives the image back.** The origin is the
first word of the bytes, and word `i` of the image is the one behind it by `i
+ 1` places. -/
theorem ofBytes?_toBytes (image : Image) : ofBytes? image.toBytes = some image := by
  obtain ⟨origin, words⟩ := image
  have hsize : (toBytes ⟨origin, words⟩).size = 2 * words.length + 2 := size_toBytes _
  have horigin := ofBytes_toBytes ⟨origin, words⟩ 0 (by omega)
  unfold ofBytes?
  rw [dif_pos (by omega), Option.some.injEq, Image.mk.injEq]
  refine ⟨Option.some.inj horigin, ?_⟩
  apply List.ext_getElem?
  intro i
  rw [List.getElem?_ofFn]
  -- beyond the words there are no two bytes left
  by_cases hi : i < words.length
  · rw [dif_pos (by omega)]
    exact ofBytes_toBytes ⟨origin, words⟩ (i + 1) (by omega)
  · rw [dif_neg (by omega), List.getElem?_eq_none (by omega)]

theorem carries_toStream (image : Image) : Carries image.toStream image := by
  have hbytes := image.ofBytes?_toBytes
  unfold Carries ofStream toStream
  simp only [hbytes]

end Image

end LC3
