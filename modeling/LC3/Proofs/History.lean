/-!
# Histories

What happens to a machine from outside is a list of events, the first one
first: it is stepped, input arrives, somebody changes a word. Which events
there are differs from question to question, and so does what is asked about
them. What does not differ is how the answer for one event becomes the answer
for all of them, and that is said here once, for any states and any events.

A history has a state behind it (`after`), it gives things on the way
(`collected`), it may carry a value along that is no part of the state
(`carried`), and it may be restricted event by event (`Throughout`). Every
run lemma asks for one fact about a single event, in whatever state that
finds, and is an induction on the history with the state general.

> `keeps_after`, `keeps_carried`: what every event keeps is kept;
> `collected_balance`: if every event conserves what it moves, nothing is
> lost or doubled;
> `length_collected_le`: how much is given, if only some events give
> something.
-/

namespace LC3.History

variable {σ ε α β : Type} (apply : σ → ε → σ)

/-- The state behind the events. -/
def after (s : σ) (events : List ε) : σ := events.foldl apply s

/-- What the events give, in order. What one of them gives may depend on the
state it finds. -/
def collected (give : σ → ε → List α) (s : σ) : List ε → List α
  | [] => []
  | event :: events => give s event ++ collected give (apply s event) events

/-- A value that every event may change, in view of the state it finds. -/
def carried (change : σ → β → ε → β) (s : σ) (value : β) : List ε → β
  | [] => value
  | event :: events => carried change (apply s event) (change s value event) events

/-- Every event satisfies `P` in the state it finds. -/
def Throughout (P : σ → ε → Prop) (s : σ) : List ε → Prop
  | [] => True
  | event :: events => P s event ∧ Throughout P (apply s event) events

variable {apply}

/-- **What every event keeps is kept**, under a condition on the events if
need be. -/
theorem keeps_after {P : σ → ε → Prop} {I : σ → Prop}
    (hevent : ∀ {s event}, P s event → I s → I (apply s event)) (events : List ε) :
    ∀ {s : σ}, I s → Throughout apply P s events → I (after apply s events) := by
  induction events with
  | nil => exact fun hs _ => hs
  | cons event events ih => exact fun hs h => ih (hevent h.1 hs) h.2

/-- The same of a state and a value that is carried along beside it. -/
theorem keeps_carried {change : σ → β → ε → β} {I : σ → β → Prop}
    (hevent : ∀ {s value} event, I s value → I (apply s event) (change s value event))
    (events : List ε) : ∀ {s : σ} {value : β}, I s value →
      I (after apply s events) (carried apply change s value events) := by
  induction events with
  | nil => exact id
  | cons event events ih => exact fun h => ih (hevent event h)

/-- What the events bring, carried along, is what they bring altogether. -/
theorem carried_append (bring : ε → List α) (events : List ε) : ∀ (s : σ) (value : List α),
    carried apply (fun _ value event => value ++ bring event) s value events =
      value ++ events.flatMap bring := by
  induction events with
  | nil => exact fun _ value => (List.append_nil value).symm
  | cons event events ih =>
    intro s value
    refine (ih (apply s event) (value ++ bring event)).trans ?_
    rw [List.append_assoc, List.flatMap_cons]

/-- **Conservation.** If what an event gives and then what it leaves is what
it has found and then what it brings, then a history gives and leaves what
there was at first and what it has brought. -/
theorem collected_balance (content : σ → List α) {give : σ → ε → List α} {bring : ε → List α}
    (hevent : ∀ s event, give s event ++ content (apply s event) = content s ++ bring event)
    (events : List ε) : ∀ s : σ,
      collected apply give s events ++ content (after apply s events) =
        content s ++ events.flatMap bring := by
  induction events with
  | nil => exact fun s => (List.append_nil _).symm
  | cons event events ih =>
    intro s
    calc collected apply give s (event :: events) ++ content (after apply s (event :: events))
        = give s event ++ (collected apply give (apply s event) events ++
            content (after apply (apply s event) events)) := List.append_assoc _ _ _
      _ = give s event ++ content (apply s event) ++ events.flatMap bring := by
        rw [ih (apply s event), List.append_assoc]
      _ = content s ++ (event :: events).flatMap bring := by
        rw [hevent s event, List.append_assoc, List.flatMap_cons]

/-- If the events that satisfy `p` give one thing at most and the others
nothing, as many things are given at most as there are events that satisfy
`p`. -/
theorem length_collected_le {give : σ → ε → List α} {p : ε → Bool}
    (hsome : ∀ s event, (give s event).length ≤ 1)
    (hnone : ∀ s event, p event = false → give s event = []) (events : List ε) :
    ∀ s : σ, (collected apply give s events).length ≤ events.countP p := by
  induction events with
  | nil => exact fun _ => Nat.le_refl 0
  | cons event events ih =>
    intro s
    have hrest := ih (apply s event)
    rw [collected, List.length_append, List.countP_cons]
    cases hp : p event with
    | false =>
      rw [hnone s event hp, List.length_nil, Nat.zero_add]
      exact hrest
    | true =>
      have hone := hsome s event
      rw [if_pos rfl]
      omega

end LC3.History
