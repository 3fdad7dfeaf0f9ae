import Mathlib.Data.List.Forall2
import LC3.Checked.Key

/-!
# Typed text

What is typed at a terminal is what a program finds there: the bytes of each
event, in the order of the events, behind those that waited already. The
rules of a key are tried one after another, and several fit one event:
CONTROL with a letter is a character as well, and with a small c it
interrupts. `Types` says the same with rules of which never two fit, so that
their order does not matter, and the proof ties the two together.

> `placeOf_eq`, `encode_four`: the tests of a key pass, whatever the key;
> `types_iff`: a rule fits each event, and it gives the bytes that trying in
> order gives;
> `eval_pushKeys_append`: events that do not interrupt, before any others;
> `arrives_in_order`: what is typed arrives, and if it is text it can be read
> back as that text.

The induction is on the list of events, over any bytes that wait.
-/

namespace LC3

theorem isUpper_iff {c : Char} : c.isUpper = true ↔ 65 ≤ c.toNat ∧ c.toNat ≤ 90 :=
  decide_eq_true_iff

theorem isLower_iff {c : Char} : c.isLower = true ↔ 97 ≤ c.toNat ∧ c.toNat ≤ 122 :=
  (Bool.and_eq_true_iff).trans (and_congr decide_eq_true_iff decide_eq_true_iff)

theorem isAlpha_iff {c : Char} :
    c.isAlpha = true ↔ (65 ≤ c.toNat ∧ c.toNat ≤ 90) ∨ (97 ≤ c.toNat ∧ c.toNat ≤ 122) :=
  (Bool.or_eq_true_iff).trans (or_congr isUpper_iff isLower_iff)

/-- A capital letter is 32 places before the small one, and nothing else has
another form. -/
theorem toNat_toLower (c : Char) :
    c.toLower.toNat = if 65 ≤ c.toNat ∧ c.toNat ≤ 90 then c.toNat + 32 else c.toNat := by
  have hiff : (c.val ≥ 'A'.val ∧ c.val ≤ 'Z'.val) ↔ 65 ≤ c.toNat ∧ c.toNat ≤ 90 := Iff.rfl
  unfold Char.toLower
  -- the test of the library is on the code, the one here on its number
  by_cases h : c.val ≥ 'A'.val ∧ c.val ≤ 'Z'.val
  · have hle := (hiff.1 h).2
    rw [dif_pos h, if_pos (hiff.1 h)]
    show (c.val + ('a'.val - 'A'.val)).toNat = c.toNat + 32
    rw [UInt32.toNat_add]
    exact Nat.mod_eq_of_lt (show c.toNat + 32 < _ by omega)
  · rw [dif_neg h, if_neg (fun hn => h (hiff.2 hn))]

/-- A small letter has its place above 96. -/
theorem toNat_controlCode {c : Char} (h : c.isAlpha = true) :
    97 ≤ c.toLower.toNat ∧ c.toLower.toNat ≤ 122 ∧
      (controlCode c).toNat + 96 = c.toLower.toNat := by
  have hsmall : 97 ≤ c.toLower.toNat ∧ c.toLower.toNat ≤ 122 := by
    have hletter := isAlpha_iff.1 h
    rw [toNat_toLower]
    split <;> omega
  have hcode : (controlCode c).toNat = (c.toLower.toNat - 97 + 1) % 256 := UInt8.toNat_ofNat'
  omega

namespace TypedText

open Checked

/-- `c` is letter number `n` of the alphabet, capital or small. The first is
number 1. -/
structure IsLetter (c : Char) (n : Nat) : Prop where
  pos : 0 < n
  le : n ≤ 26
  eq : c.toNat + 1 = 'A'.toNat + n ∨ c.toNat + 1 = 'a'.toNat + n

/-- Capital or small, a letter is known by its place in the alphabet, and
CONTROL makes of it the byte with that number. -/
theorem isLetter_iff {c : Char} {n : Nat} :
    IsLetter c n ↔ c.isAlpha = true ∧ (controlCode c).toNat = n := by
  have hcapital : 'A'.toNat = 65 := rfl
  have hsmall : 'a'.toNat = 97 := rfl
  constructor
  · rintro ⟨h0, h26, h⟩
    have halpha : c.isAlpha = true := isAlpha_iff.2 (by omega)
    obtain ⟨-, -, hcode⟩ := toNat_controlCode halpha
    rw [toNat_toLower] at hcode
    refine ⟨halpha, ?_⟩
    split at hcode <;> omega
  · rintro ⟨halpha, rfl⟩
    obtain ⟨hle, hge, hcode⟩ := toNat_controlCode halpha
    refine ⟨by omega, by omega, ?_⟩
    rw [toNat_toLower] at hcode
    split at hcode <;> omega

/-- The program asks whether a character is a letter, the rules ask which. -/
theorem isAlpha_iff_isLetter {c : Char} : c.isAlpha = true ↔ ∃ n, IsLetter c n := by
  simp [isLetter_iff]

/-! ## The tests of a key -/

/-- Neither the difference nor the sum of a letter's place is out of range. -/
theorem placeOf_eq {c : Char} (h : c.isAlpha = true) : placeOf c = .ok (controlCode c) := by
  obtain ⟨hle, hge, hcode⟩ := toNat_controlCode h
  have hsmall : 'a'.toUInt8.toNat = 97 := rfl
  have hone : (1 : UInt8).toNat = 1 := rfl
  have hbyte : c.toLower.toUInt8.toNat = c.toLower.toNat :=
    Nat.mod_eq_of_lt (show c.toLower.toNat < 256 by omega)
  have hnotBelow : 'a'.toUInt8 ≤ c.toLower.toUInt8 := UInt8.le_iff_toNat_le.2 (by omega)
  -- a small letter is not below a, so the difference is one
  have hsub : subByte c.toLower.toUInt8 'a'.toUInt8 = .ok (c.toLower.toUInt8 - 'a'.toUInt8) :=
    if_pos hnotBelow
  have hdiff : (c.toLower.toUInt8 - 'a'.toUInt8).toNat = c.toLower.toNat - 97 := by
    rw [UInt8.toNat_sub_of_le _ _ hnotBelow, hbyte, hsmall]
  have hadd : addByte (c.toLower.toUInt8 - 'a'.toUInt8) 1 =
      .ok (c.toLower.toUInt8 - 'a'.toUInt8 + 1) := if_pos (by omega)
  have hplace : c.toLower.toUInt8 - 'a'.toUInt8 + 1 = controlCode c := by
    apply UInt8.toNat_inj.1
    rw [UInt8.toNat_add, hdiff, hone]
    omega
  rw [← hplace]
  simp only [placeOf, hsub, hadd, bind, Except.bind]

/-- A character has four bytes at most. -/
theorem encode_four (c : Char) : encode c 4 = .ok (String.utf8EncodeChar c) :=
  if_pos (String.length_utf8EncodeChar c ▸ c.utf8Size_le_four)

variable {turns : Nat} {t : Terminal}

@[simp] theorem eval_typeBytes (bytes : List UInt8) :
    (typeBytes bytes).eval turns t =
      some (.ok .goesOn, { t with pending := t.pending ++ bytes }) := by
  simp [typeBytes]

/-- The one thing that can go wrong with a key: there is nothing to put back. -/
theorem eval_interrupt :
    interrupt.eval turns t =
      if t.raw then
        some (.ok .interrupted, { t with raw := false, output := t.output.push '\n'.toUInt8 })
      else some (.error .notRaw, t) := by
  obtain ⟨pending, raw, output⟩ := t
  cases raw <;> simp [interrupt, leaveRaw]

/-- **A key passes all its tests**, and adds its bytes unless it interrupts.
The rules are tried in the order in which the program has them, with the kind
of key split first. -/
theorem eval_pushKey (e : KeyEvent) :
    (pushKey e).eval turns t =
      if e.interrupts then interrupt.eval turns t
      else some (.ok .goesOn, { t with pending := t.pending ++ e.bytes }) := by
  have hnewline : '\n'.toUInt8 = 0x0A := rfl
  have htab : '\t'.toUInt8 = 0x09 := rfl
  obtain ⟨code, modifiers, action⟩ := e
  by_cases ha : action = .release
  · simp [pushKey, KeyEvent.interrupts, KeyEvent.bytes, ha]
  · cases code with
    | char c =>
      -- the three rules for a character, in the order in which they are tried
      by_cases hint : modifiers = .controlOnly ∧ c = 'c'
      · simp [pushKey, KeyEvent.interrupts, ha, hint]
      · by_cases hletter : modifiers = .controlOnly ∧ c.isAlpha
        · have hc : c ≠ 'c' := fun hc => hint ⟨hletter.1, hc⟩
          simp [pushKey, KeyEvent.interrupts, KeyEvent.bytes, ha, hc, hletter, placeOf_eq]
        · simp [pushKey, KeyEvent.interrupts, KeyEvent.bytes, ha, hint, hletter, encode_four]
    | enter | tab | backspace | escape | other =>
      simp [pushKey, KeyEvent.interrupts, KeyEvent.bytes, ha, hnewline, htab]

/-! ## The rules in no order -/

/-- What an event types. No two of the rules fit one event. -/
inductive Types : KeyEvent → List UInt8 → Prop where
  | release {code modifiers} : Types ⟨code, modifiers, .release⟩ []
  /-- CONTROL alone makes a letter its place in the alphabet. -/
  | control {c n action} (h : action ≠ .release) (hc : IsLetter c n) :
      Types ⟨.char c, .controlOnly, action⟩ [.ofNat n]
  /-- Any other character, and a letter with any other modifiers. -/
  | char {c modifiers action} (h : action ≠ .release)
      (hc : ¬ (modifiers = .controlOnly ∧ ∃ n, IsLetter c n)) :
      Types ⟨.char c, modifiers, action⟩ (String.utf8EncodeChar c)
  | enter {modifiers action} (h : action ≠ .release) : Types ⟨.enter, modifiers, action⟩ [0x0A]
  | tab {modifiers action} (h : action ≠ .release) : Types ⟨.tab, modifiers, action⟩ [0x09]
  | backspace {modifiers action} (h : action ≠ .release) :
      Types ⟨.backspace, modifiers, action⟩ [0x7F]
  | escape {modifiers action} (h : action ≠ .release) : Types ⟨.escape, modifiers, action⟩ [0x1B]
  | other {modifiers action} (h : action ≠ .release) : Types ⟨.other, modifiers, action⟩ []

theorem exists_types (e : KeyEvent) : ∃ bytes, Types e bytes := by
  obtain ⟨code, modifiers, action⟩ := e
  by_cases h : action = .release
  · subst h
    exact ⟨_, .release⟩
  · cases code with
    | char c =>
      by_cases hc : modifiers = .controlOnly ∧ ∃ n, IsLetter c n
      · obtain ⟨rfl, n, hn⟩ := hc
        exact ⟨_, .control h hn⟩
      · exact ⟨_, .char h hc⟩
    | enter => exact ⟨_, .enter h⟩
    | tab => exact ⟨_, .tab h⟩
    | backspace => exact ⟨_, .backspace h⟩
    | escape => exact ⟨_, .escape h⟩
    | other => exact ⟨_, .other h⟩

/-- The rule that fits an event gives the bytes that are tried out for it.
One case for each rule. -/
theorem Types.eq_bytes {e : KeyEvent} {bytes : List UInt8} (h : Types e bytes) :
    bytes = e.bytes := by
  cases h with
  | release => rfl
  | control h hc =>
    obtain ⟨halpha, rfl⟩ := isLetter_iff.1 hc
    simp [KeyEvent.bytes, halpha]
  | char h hc =>
    rw [← isAlpha_iff_isLetter] at hc
    simp [KeyEvent.bytes, hc]
  | enter h | tab h | backspace h | escape h | other h => simp [KeyEvent.bytes]

/-- So the rules and the order of trying say the same. -/
theorem types_iff {e : KeyEvent} {bytes : List UInt8} : Types e bytes ↔ bytes = e.bytes := by
  constructor
  · exact Types.eq_bytes
  · rintro rfl
    obtain ⟨bytes, h⟩ := exists_types e
    exact h.eq_bytes ▸ h

theorem forall₂_types_iff {events : List KeyEvent} {pieces : List (List UInt8)} :
    List.Forall₂ Types events pieces ↔ pieces = events.map KeyEvent.bytes := by
  -- the relation is the graph of a function, so the pieces are determined
  have hrule : Types = fun e bytes => e.bytes = bytes := by
    funext e bytes
    exact propext (types_iff.trans eq_comm)
  rw [hrule, ← List.forall₂_map_left_iff (f := KeyEvent.bytes), List.forall₂_eq_eq_eq, eq_comm]

/-! ## One event after another -/

/-- The short form of typing, which stops at an interrupt, adds the bytes of
one event after the other. -/
theorem foldlM_push? {events : List KeyEvent} (h : ∀ e ∈ events, e.interrupts = false)
    (pending : List UInt8) :
    events.foldlM KeyEvent.push? pending = some (pending ++ events.flatMap KeyEvent.bytes) := by
  induction events generalizing pending with
  | nil => simp
  | cons e events ih =>
    obtain ⟨he, hrest⟩ := List.forall_mem_cons.1 h
    have hpush : KeyEvent.push? pending e = some (pending ++ e.bytes) := by
      simp [KeyEvent.push?, he]
    rw [List.foldlM_cons, hpush]
    show events.foldlM KeyEvent.push? (pending ++ e.bytes) = _
    rw [ih hrest, List.flatMap_cons, List.append_assoc]

/-- Events that do not interrupt add their bytes, and the rest go on from
there. -/
theorem eval_pushKeys_append {typed : List KeyEvent} (h : ∀ e ∈ typed, e.interrupts = false)
    (rest : List KeyEvent) :
    (pushKeys (typed ++ rest)).eval turns t =
      (pushKeys rest).eval turns
        { t with pending := t.pending ++ typed.flatMap KeyEvent.bytes } := by
  induction typed generalizing t with
  | nil => simp
  | cons e typed ih =>
    obtain ⟨he, hrest⟩ := List.forall_mem_cons.1 h
    simp [pushKeys, eval_pushKey, he, ih hrest]

theorem eval_pushKeys {events : List KeyEvent} (h : ∀ e ∈ events, e.interrupts = false) :
    (pushKeys events).eval turns t =
      some (.ok .goesOn, { t with pending := t.pending ++ events.flatMap KeyEvent.bytes }) := by
  have happend : (pushKeys (events ++ [])).eval turns t = _ := eval_pushKeys_append h []
  rw [List.append_nil] at happend
  exact happend

/-- The first event that interrupts ends it: what is behind it is not looked
at. -/
theorem eval_pushKeys_interrupt {typed : List KeyEvent} (h : ∀ e ∈ typed, e.interrupts = false)
    {e : KeyEvent} (he : e.interrupts = true) (rest : List KeyEvent) :
    (pushKeys (typed ++ e :: rest)).eval turns t =
      interrupt.eval turns { t with pending := t.pending ++ typed.flatMap KeyEvent.bytes } := by
  rw [eval_pushKeys_append h, pushKeys, eval_bind, eval_pushKey, if_pos he]
  simp only [eval_interrupt]
  cases t.raw <;> rfl

/-- The event types `c` as it is. -/
structure Spells (e : KeyEvent) (c : Char) : Prop where
  action : e.action ≠ .release
  modifiers : e.modifiers ≠ .controlOnly
  code : e.code = .char c

/-- A small c interrupts with CONTROL alone, and that is not how text is
typed. -/
theorem Spells.interrupts {e : KeyEvent} {c : Char} (h : Spells e c) : e.interrupts = false := by
  simp [KeyEvent.interrupts, h.modifiers]

theorem Spells.bytes {e : KeyEvent} {c : Char} (h : Spells e c) :
    e.bytes = String.utf8EncodeChar c := by
  obtain ⟨code, modifiers, action⟩ := e
  obtain ⟨ha, hm, rfl⟩ := h
  simp [KeyEvent.bytes, show modifiers ≠ .controlOnly from hm]

theorem interrupts_of_spells {events : List KeyEvent} {text : List Char}
    (h : List.Forall₂ Spells events text) : ∀ e ∈ events, e.interrupts = false := by
  induction h with
  | nil => simp
  | cons he _ ih => exact List.forall_mem_cons.2 ⟨he.interrupts, ih⟩

/-- The bytes of the text are its encoding, one character after the other,
and decoding takes encoding back. -/
theorem utf8Decode?_of_spells {events : List KeyEvent} {text : List Char}
    (h : List.Forall₂ Spells events text) :
    (events.flatMap KeyEvent.bytes).toByteArray.utf8Decode? = some text.toArray := by
  have hbytes : events.flatMap KeyEvent.bytes = text.flatMap String.utf8EncodeChar := by
    induction h with
    | nil => rfl
    | cons he _ ih => rw [List.flatMap_cons, List.flatMap_cons, he.bytes, ih]
  rw [hbytes]
  exact List.utf8Decode?_utf8Encode

/-- The events leave the program running, with no panic, and have put `bytes`
behind what waits. -/
def AddsTo (events : List KeyEvent) (t : Terminal) (bytes : List UInt8) : Prop :=
  ∀ r t', ComesTo (pushKeys events) t r t' ↔
    r = .ok .goesOn ∧ t' = { t with pending := t.pending ++ bytes }

/-- However many turns the events are given, they come to this and to nothing
else. -/
theorem addsTo_flatMap_bytes {events : List KeyEvent} (h : ∀ e ∈ events, e.interrupts = false)
    (t : Terminal) : AddsTo events t (events.flatMap KeyEvent.bytes) := by
  intro r t'
  rw [(settles_of_eval fun _ => eval_pushKeys h).comesTo_iff, Option.some.injEq, Prod.mk.injEq]
  exact and_congr eq_comm eq_comm

/-- **What is typed arrives.** Events of which none interrupts put their
bytes behind those that wait and do nothing else; each of them has its own,
whatever comes before or after it. Characters typed without CONTROL, or with
more than it, come out again when their bytes are decoded. -/
theorem arrives_in_order (t : Terminal) (events : List KeyEvent) :
    ((∀ e ∈ events, e.interrupts = false) →
      (∃ pieces, List.Forall₂ Types events pieces) ∧
      ∀ pieces, List.Forall₂ Types events pieces →
        AddsTo events t pieces.flatten ∧
        events.foldlM KeyEvent.push? t.pending = some (t.pending ++ pieces.flatten)) ∧
    ∀ text : List Char, List.Forall₂ Spells events text →
      ∃ bytes, AddsTo events t bytes ∧ bytes.toByteArray.utf8Decode? = some text.toArray := by
  constructor
  · intro h
    refine ⟨⟨_, forall₂_types_iff.2 rfl⟩, ?_⟩
    intro pieces hpieces
    obtain rfl := forall₂_types_iff.1 hpieces
    rw [← List.flatMap_def]
    exact ⟨addsTo_flatMap_bytes h t, foldlM_push? h t.pending⟩
  · intro text hspells
    exact ⟨_, addsTo_flatMap_bytes (interrupts_of_spells hspells) t, utf8Decode?_of_spells hspells⟩

/-- A capital C under CONTROL, a held key, a release, and CONTROL where it
makes no difference. -/
def mixedKeys : List KeyEvent :=
  [⟨.char 'C', .controlOnly, .press⟩, ⟨.char 'é', { shift := true }, .autorepeat⟩,
    ⟨.char 'x', .controlOnly, .release⟩, ⟨.enter, .controlOnly, .press⟩, ⟨.other, {}, .press⟩,
    ⟨.char '1', .controlOnly, .press⟩]

/-- Text with a small c under CONTROL and another modifier, which does not
interrupt. -/
def plainKeys : List KeyEvent :=
  [⟨.char '€', {}, .press⟩, ⟨.char 'c', { control := true, alt := true }, .autorepeat⟩]

/-- Both lists are typed behind a byte that waits. The euro sign has three
bytes and c has one. -/
theorem arrives_in_order_mixed :
    (∀ e ∈ mixedKeys, e.interrupts = false) ∧
    AddsTo mixedKeys { pending := [0xFF] } [3, 0xC3, 0xA9, 0x0A, 0x31] ∧
    List.Forall₂ Spells plainKeys ['€', 'c'] ∧
    ∃ bytes, AddsTo plainKeys { pending := [0xFF] } bytes ∧
      bytes.toByteArray.utf8Decode? = some #['€', 'c'] := by
  have hgoesOn : ∀ e ∈ mixedKeys, e.interrupts = false := by decide
  have hpieces : List.Forall₂ Types mixedKeys [[3], [0xC3, 0xA9], [], [0x0A], [], [0x31]] :=
    forall₂_types_iff.2 (by decide)
  have hspells : List.Forall₂ Spells plainKeys ['€', 'c'] :=
    .cons ⟨by decide, by decide, rfl⟩ (.cons ⟨by decide, by decide, rfl⟩ .nil)
  obtain ⟨hmixed, -⟩ := arrives_in_order { pending := [0xFF] } mixedKeys
  obtain ⟨-, hplain⟩ := arrives_in_order { pending := [0xFF] } plainKeys
  exact ⟨hgoesOn, ((hmixed hgoesOn).2 _ hpieces).1, hspells, hplain _ hspells⟩

end TypedText
end LC3
