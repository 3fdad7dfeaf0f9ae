/-!
# Path patterns

A pattern is a path whose pieces may stand for several names: `?` for any
character, `*` for any run of them, `[…]` for a character of a set and `[!…]`
for one outside it, and a piece `**` for any number of directories. This file
reads patterns and holds names against them; `LC3.Pattern.Search` looks for
the paths. `Token.Spells` says what a list of signs stands for, and
`Token.matchesAll` decides it (`Token.matchesAll_iff`) in time proportional
to signs times characters.
-/

namespace LC3

/-- What one sign of a pattern stands for. -/
inductive Token where
  | char (c : Char)
  | any
  | sequence
  | within (ranges : List (Char × Char))
  | outside (ranges : List (Char × Char))
  deriving DecidableEq, Repr

/-- A piece of a pattern between slashes. -/
inductive Part where
  | name (tokens : List Token)
  /-- Any number of directories, one inside the other. -/
  | directories
  deriving DecidableEq, Repr

structure Pattern where
  /-- The pattern starts at the root instead of the working directory. -/
  rooted : Bool
  parts : List Part
  directoryOnly : Bool
  deriving DecidableEq, Repr

namespace Token

/-- Whether a character is in one of the ranges, ends included. -/
def inRanges (ranges : List (Char × Char)) (c : Char) : Bool :=
  ranges.any fun (first, last) => first ≤ c && c ≤ last

/-- Whether a token that stands for one character stands for `c`. -/
def admits (c : Char) : Token → Bool
  | .char d => c = d
  | .any => true
  | .sequence => false
  | .within ranges => inRanges ranges c
  | .outside ranges => !inRanges ranges c

/-- The character that a token is written for, if it is no sign for anything
else. -/
def literal? : Token → Option Char
  | .char c => some c
  | _ => none

/-- Reads the inside of brackets: `a-b` is a range, any other character
stands for itself. -/
def ranges : List Char → List (Char × Char)
  | first :: '-' :: last :: rest => (first, last) :: ranges rest
  | c :: rest => (c, c) :: ranges rest
  | [] => []

/-- Splits at the first closing bracket; `none` if there is no such. -/
def closing? : List Char → Option (List Char × List Char)
  | [] => none
  | ']' :: rest => some ([], rest)
  | c :: rest => (closing? rest).map fun (inside, after) => (c :: inside, after)

/-- What is behind a closing bracket is shorter, so the parse comes to an
end. -/
theorem length_of_closing? {cs inside after : List Char} (h : closing? cs = some (inside, after)) :
    after.length < cs.length := by
  fun_induction closing? cs generalizing inside with
  | case1 => simp at h
  | case2 rest => simp_all
  | case3 c rest _ ih =>
    obtain ⟨⟨inside', after'⟩, hc, heq⟩ := Option.map_eq_some_iff.1 h
    simp only [Prod.mk.injEq] at heq
    have := ih (heq.2 ▸ hc)
    simp
    omega

/-- Reads the signs of a name; `none` if a bracket is not closed around at
least one character, or if one star follows another. -/
def ofChars? : List Char → Option (List Token)
  | [] => some []
  | '?' :: rest => (ofChars? rest).map (.any :: ·)
  | '*' :: '*' :: _ => none
  | '*' :: rest => (ofChars? rest).map (.sequence :: ·)
  | '[' :: '!' :: c :: rest =>
    match _h : closing? rest with
    | some (inside, after) => (ofChars? after).map (.outside (ranges (c :: inside)) :: ·)
    | none => none
  | '[' :: '!' :: [] => none
  | '[' :: c :: rest =>
    match _h : closing? rest with
    | some (inside, after) => (ofChars? after).map (.within (ranges (c :: inside)) :: ·)
    | none => none
  | '[' :: [] => none
  | c :: rest => (ofChars? rest).map (.char c :: ·)
  termination_by cs => cs.length
  decreasing_by
    · simp
    · simp
    · have hlt := length_of_closing? _h
      simp
      omega
    · have hlt := length_of_closing? _h
      simp
      omega
    · simp

/-- What a list of tokens stands for. -/
inductive Spells : List Token → List Char → Prop where
  | nil : Spells [] []
  | one {token : Token} {c : Char} {tokens : List Token} {cs : List Char} :
    token.admits c → Spells tokens cs → Spells (token :: tokens) (c :: cs)
  | sequence (skipped : List Char) {tokens : List Token} {cs : List Char} :
    Spells tokens cs → Spells (.sequence :: tokens) (skipped ++ cs)

/-- For every end of a name, the whole name first and the empty end last,
whether the tokens stand for it. Each token looks at each end once, however
many ways there are to share out the name. -/
def matchesEnds : List Token → List Char → List Bool
  | [], cs => cs.map (fun _ => false) ++ [true]
  | .sequence :: tokens, cs =>
    (matchesEnds tokens cs).foldr (fun here ends => (here || ends.headD false) :: ends) []
  | token :: tokens, cs =>
    List.zipWith (fun c later => token.admits c && later) cs (matchesEnds tokens cs).tail ++ [false]

def matchesAll (tokens : List Token) (cs : List Char) : Bool := (matchesEnds tokens cs).headD false

/-- The row of a token that takes one character, from the row of the tokens
behind it. -/
theorem matchesEnds_token {token : Token} (h : token ≠ .sequence) (tokens : List Token)
    (cs : List Char) :
    matchesEnds (token :: tokens) cs =
      List.zipWith (fun c later => token.admits c && later) cs (matchesEnds tokens cs).tail ++
        [false] := by
  cases token with
  | sequence => exact absurd rfl h
  | _ => rfl

theorem headD_cons_tail {ends : List Bool} (h : ends ≠ []) :
    ends.headD false :: ends.tail = ends := by
  cases ends with
  | nil => exact absurd rfl h
  | cons here ends => rfl

/-- There is an entry for each end of the text, the empty one included. -/
theorem matchesEnds_ne_nil (tokens : List Token) (cs : List Char) : matchesEnds tokens cs ≠ [] := by
  induction tokens with
  | nil => simp [matchesEnds]
  | cons token tokens ih =>
    cases token with
    | sequence =>
      rw [matchesEnds, ← headD_cons_tail ih, List.foldr_cons]
      exact List.cons_ne_nil _ _
    | _ => simp [matchesEnds]

/-- The ends of a name but the first are the ends of what follows its first
character. -/
theorem tail_matchesEnds (tokens : List Token) (c : Char) (cs : List Char) :
    (matchesEnds tokens (c :: cs)).tail = matchesEnds tokens cs := by
  induction tokens generalizing c cs with
  | nil => simp [matchesEnds]
  | cons token tokens ih =>
    cases token with
    | sequence =>
      rw [matchesEnds, ← headD_cons_tail (matchesEnds_ne_nil tokens (c :: cs)), ih, matchesEnds]
      rfl
    | _ =>
      simp only [matchesEnds, ih]
      rw [← headD_cons_tail (matchesEnds_ne_nil tokens cs)]
      rfl

/-- The ends of a name are the name itself and the ends of what follows its
first character. -/
theorem matchesEnds_cons (tokens : List Token) (c : Char) (cs : List Char) :
    matchesEnds tokens (c :: cs) = matchesAll tokens (c :: cs) :: matchesEnds tokens cs := by
  rw [← headD_cons_tail (matchesEnds_ne_nil tokens (c :: cs)), tail_matchesEnds]
  rfl

theorem tail_matchesEnds_nil (tokens : List Token) : (matchesEnds tokens []).tail = [] := by
  induction tokens with
  | nil => rfl
  | cons token tokens ih =>
    cases token with
    | sequence =>
      rw [matchesEnds, ← headD_cons_tail (matchesEnds_ne_nil tokens []), ih]
      rfl
    | _ => rfl

/-- The equations of matching, as one would write them down: a sequence takes
nothing, or one character more. -/
theorem matchesAll_sequence_nil (tokens : List Token) :
    matchesAll (.sequence :: tokens) [] = matchesAll tokens [] := by
  rw [matchesAll, matchesEnds, ← headD_cons_tail (matchesEnds_ne_nil tokens []),
    tail_matchesEnds_nil]
  exact Bool.or_false _

theorem matchesAll_sequence_cons (tokens : List Token) (c : Char) (cs : List Char) :
    matchesAll (.sequence :: tokens) (c :: cs) =
      (matchesAll tokens (c :: cs) || matchesAll (.sequence :: tokens) cs) := by
  rw [matchesAll, matchesEnds, matchesEnds_cons]
  rfl

theorem matchesAll_token_cons {token : Token} (h : token ≠ .sequence) (tokens : List Token)
    (c : Char) (cs : List Char) :
    matchesAll (token :: tokens) (c :: cs) = (token.admits c && matchesAll tokens cs) := by
  rw [matchesAll, matchesEnds_token h, tail_matchesEnds,
    ← headD_cons_tail (matchesEnds_ne_nil tokens cs)]
  rfl

theorem matchesAll_token_nil {token : Token} (h : token ≠ .sequence) (tokens : List Token) :
    matchesAll (token :: tokens) [] = false := by
  rw [matchesAll, matchesEnds_token h]
  rfl

/-- The decision is right: a name is accepted exactly if the tokens stand for
it. -/
theorem matchesAll_iff {tokens : List Token} {cs : List Char} :
    matchesAll tokens cs = true ↔ Spells tokens cs := by
  constructor
  · intro h
    induction tokens generalizing cs with
    | nil =>
      cases cs with
      | nil => exact .nil
      | cons c cs => simp [matchesAll, matchesEnds] at h
    | cons token tokens ih =>
      by_cases hseq : token = .sequence
      · subst hseq
        induction cs with
        | nil =>
          rw [matchesAll_sequence_nil] at h
          exact .sequence [] (ih h)
        | cons c cs ihcs =>
          rw [matchesAll_sequence_cons, Bool.or_eq_true] at h
          rcases h with hhere | hlater
          · exact .sequence [] (ih hhere)
          · cases ihcs hlater with
            | one hadm => simp [admits] at hadm
            | sequence skipped hrest => exact .sequence (c :: skipped) hrest
      · cases cs with
        | nil => simp [matchesAll_token_nil hseq] at h
        | cons c cs =>
          rw [matchesAll_token_cons hseq, Bool.and_eq_true] at h
          exact .one h.1 (ih h.2)
  · intro h
    induction h with
    | nil => rfl
    | @one token c tokens cs hadm _ ih =>
      have hseq : token ≠ .sequence := by
        rintro rfl
        simp [admits] at hadm
      rw [matchesAll_token_cons hseq, hadm, ih]
      rfl
    | @sequence skipped tokens cs _ ih =>
      induction skipped with
      | nil =>
        cases cs with
        | nil => exact (matchesAll_sequence_nil tokens).trans ih
        | cons c cs => rw [List.nil_append, matchesAll_sequence_cons, ih, Bool.true_or]
      | cons c skipped ihs => rw [List.cons_append, matchesAll_sequence_cons, ihs, Bool.or_true]

end Token

namespace Part

def ofString? (piece : String) : Option Part :=
  if piece = "**" then some .directories else (Token.ofChars? piece.toList).map .name

/-- The name that a piece stands for, if it has no sign for anything but a
character. -/
def literal? : Part → Option String
  | .directories => none
  | .name tokens => (tokens.mapM Token.literal?).map String.ofList

def accepts (name : String) : Part → Bool
  | .directories => false
  | .name tokens => Token.matchesAll tokens name.toList

/-- Whether a piece starts with a plain dot, and so may stand for `.` and
`..`. -/
def startsWithDot : Part → Bool
  | .name (.char '.' :: _) => true
  | _ => false

end Part

namespace Pattern

/-- The pieces of a pattern. A slash at its end ends the last piece and
starts none. -/
def pieces (text : String) : List String :=
  match (text.splitOn "/").reverse with
  | "" :: rest => rest.reverse
  | _ => text.splitOn "/"

/-- Reads a pattern; `none` if a piece of it cannot be read. A pattern
without pieces has one that is empty. -/
def ofString? (text : String) : Option Pattern := do
  let rooted := text.startsWith "/"
  let relative := if rooted then (text.drop 1).toString else text
  let parts ← (pieces relative).mapM Part.ofString?
  return {
    rooted
    parts := if relative.isEmpty then [.name []] else parts
    directoryOnly := text.endsWith "/" }

end Pattern

end LC3
