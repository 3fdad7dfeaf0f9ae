import LC3.Console.Feed

/-!
# A stream is delivered once and in order

The bytes of a stream lie in four places: with the reader that has not passed
them on, in the stream, pending, and with whoever has read them. Turns move
them from each place to the next, and nothing else moves them. So whatever
the order of turns, what has been read, what is pending, what is in the
stream and what is still unsent is, one after the other, the content of the
stream.

> `Tally`: this sum, and that the stream is closed exactly when its reader
> has hung up;
> `tally_turn`, `tally_step`, `tally_run`: turns of the reader, turns of
> either, and runs keep it;
> `ready_run`: a key that was found stays there until it is read;
> `delivered_in_order`: what follows for every reachable state.

A pump that the reader interrupts is one of the orders: `run_take` takes a
pump apart.
-/

namespace LC3.StreamDelivery

open Feed

/-! ## Turns of the reader -/

/-- What a turn of the reader does: it moves bytes from itself to the end of
the stream, or moves none and may hang up if it has none left. -/
structure Turned (r : Reader) (p : Pipe) (r' : Reader) (p' : Pipe) : Prop where
  bytes : p'.unread ++ r'.unsent = p.unread ++ r.unsent
  pending : p'.pending = p.pending
  closed : p'.closed = true ↔ r' = .done ∨ p.closed = true
  not_done : r ≠ .done
  ends : r.Ends → r'.Ends

/-- One case for each state of the reader and each answer to its read. Only a
byte that is sent changes the stream, and it is the first of what was unsent. -/
theorem turned {r r' : Reader} {p p' : Pipe} (h : r.turn? p = some (r', p')) :
    Turned r p r' p' := by
  have hopen : ∀ {r' : Reader}, r' ≠ .done → (p.closed = true ↔ r' = .done ∨ p.closed = true) :=
    fun hne => ⟨.inr, fun h => h.resolve_left hne⟩
  have hends : ∀ {read : StreamRead} {reads : List StreamRead}, ¬ read.IsLast →
      (∃ last ∈ read :: reads, last.IsLast) → ∃ last ∈ reads, last.IsLast := by
    rintro read reads hnot ⟨last, hmem, hlast⟩
    rcases List.mem_cons.1 hmem with rfl | hmem
    · exact absurd hlast hnot
    · exact ⟨last, hmem, hlast⟩
  cases r with
  | done => cases h
  | sending rest reads =>
    cases rest with
    | nil =>
      cases h
      exact ⟨rfl, rfl, hopen nofun, nofun, id⟩
    | cons b rest =>
      cases h
      refine ⟨?_, rfl, hopen nofun, nofun, id⟩
      rw [Pipe.unread_arrive, List.append_assoc]
      rfl
  | reading reads =>
    cases reads with
    | nil => cases h
    | cons read reads =>
      cases read with
      | chunk bytes fits =>
        cases bytes with
        | nil =>
          cases h
          exact ⟨rfl, rfl, iff_of_true rfl (.inl rfl), nofun, fun _ => trivial⟩
        | cons b bytes =>
          cases h
          exact ⟨rfl, rfl, hopen nofun, nofun, hends (List.cons_ne_nil b bytes)⟩
      | interrupted =>
        cases h
        exact ⟨rfl, rfl, hopen nofun, nofun, hends id⟩
      | failed =>
        cases h
        exact ⟨rfl, rfl, iff_of_true rfl (.inl rfl), nofun, fun _ => trivial⟩

/-! ## The tally -/

/-- What has been read, what can be read and what is unsent is the content of
the stream; the stream is closed if and only if the reader has hung up, and
the reader comes to an end if there is one. -/
structure Tally (reads : List StreamRead) (given : List UInt8) (s : Feed) : Prop where
  bytes : given ++ (s.pipe.unread ++ s.reader.unsent) = StreamRead.content reads
  closed : s.pipe.closed = true ↔ s.reader = .done
  ends : (∃ read ∈ reads, read.IsLast) → s.reader.Ends

variable {reads : List StreamRead} {given : List UInt8} {s t : Feed} {e : Event}
  {events : List Event}

theorem tally_start (reads : List StreamRead) : Tally reads [] (start reads) :=
  ⟨rfl, ⟨nofun, nofun⟩, id⟩

/-- A turn of the reader moves bytes within the sum, and hangs up exactly
when it is done. -/
theorem tally_turn {r : Reader} {p : Pipe} (ht : Tally reads given s)
    (h : s.reader.turn? s.pipe = some (r, p)) : Tally reads given ⟨r, p⟩ := by
  have hturned := turned h
  refine ⟨?_, ?_, fun hlast => hturned.ends (ht.ends hlast)⟩
  · show given ++ (p.unread ++ r.unsent) = _
    rw [hturned.bytes]
    exact ht.bytes
  -- a reader that takes a turn has not hung up, so the stream was open before
  · have hopen : s.pipe.closed ≠ true := fun hc => hturned.not_done (ht.closed.1 hc)
    exact hturned.closed.trans ⟨fun h => h.resolve_right hopen, .inl⟩

/-- A console that can give the same bytes and is closed no more and no less
keeps the tally. -/
theorem Tally.of_pipe {p : Pipe} (ht : Tally reads given s) (hunread : p.unread = s.pipe.unread)
    (hclosed : p.closed = s.pipe.closed) : Tally reads given { s with pipe := p } := by
  refine ⟨?_, ?_, ht.ends⟩
  · show given ++ (p.unread ++ s.reader.unsent) = _
    rw [hunread]
    exact ht.bytes
  · show p.closed = true ↔ _
    rw [hclosed]
    exact ht.closed

/-- A read of a stream that is not used up takes the first byte that can be
read. -/
theorem unread_of_read {p p' : Pipe} {b : UInt8} (harrived : p.unread ≠ [])
    (h : Console.readByte? p = some (b, p')) :
    p.unread = b :: p'.unread ∧ p'.closed = p.closed := by
  obtain ⟨c, rest, hunread⟩ := List.exists_cons_of_ne_nil harrived
  obtain ⟨q, hread, hrest, hclosed, -⟩ := Pipe.readByte?_of_unread hunread
  cases hread.symm.trans h
  exact ⟨hrest ▸ hunread, hclosed⟩

/-- A read of a stream that is used up gives the byte for that, if the stream
is closed. -/
theorem closed_of_readEnd {p p' : Pipe} {b : UInt8} (husedUp : p.unread = [])
    (h : Console.readByte? p = some (b, p')) :
    p.closed = true ∧ b = Pipe.endOfInput ∧ p' = p.flush := by
  rw [Pipe.readByte?_of_unread_nil husedUp] at h
  split at h
  next hclosed =>
    cases h
    exact ⟨hclosed, rfl, rfl⟩
  next => cases h

/-- A byte that is taken from the stream becomes the last of those that are
pending, so the order of the unread bytes is the same. -/
theorem unread_take {p : Pipe} {b : UInt8} {rest : List UInt8} (h : p.stream = b :: rest) :
    Pipe.unread { p with pending := p.pending ++ [b], stream := rest } = p.unread := by
  rw [Pipe.unread, Pipe.unread, h, List.append_assoc]
  rfl

/-- **Every turn keeps the tally.** A read moves the first unread byte to
what has been read, the end of input adds nothing, and every other turn moves
bytes that are still unread. -/
theorem tally_step (ht : Tally reads given s) (h : Step s e t) :
    Tally reads (given ++ returned [e]) t := by
  -- only a read of the stream gives a byte; after any other turn what has been read is the same
  have hsame : ∀ {u : Feed}, Tally reads given u → Tally reads (given ++ []) u := by
    intro u hu
    rwa [List.append_nil]
  cases h with
  | reader h => exact hsame (tally_turn ht h)
  | attach => exact hsame ht
  | pump => exact hsame (ht.of_pipe (Pipe.unread_pump _) (Pipe.closed_pump _))
  | take h => exact hsame (ht.of_pipe (unread_take h) rfl)
  | keyReady h =>
    rw [Pipe.keyReady_eq] at h
    cases h
    exact hsame (ht.of_pipe (Pipe.unread_pump _) (Pipe.closed_pump _))
  | @read b p harrived h =>
    obtain ⟨hunread, hclosed⟩ := unread_of_read harrived h
    refine ⟨?_, ?_, ht.ends⟩
    · rw [← ht.bytes, hunread, List.append_assoc]
      rfl
    · rw [hclosed]
      exact ht.closed
  | readEnd husedUp h =>
    obtain ⟨-, -, rfl⟩ := closed_of_readEnd husedUp h
    exact hsame (ht.of_pipe rfl rfl)

/-- By induction on the turns: the tally is an invariant of every order in
which they are taken. -/
theorem tally_run (ht : Tally reads given s) (h : Run s events t) :
    Tally reads (given ++ returned events) t := by
  induction h generalizing given with
  | nil =>
    rw [returned, List.append_nil]
    exact ht
  | @cons s t u e events hstep _ ih =>
    have := ih (tally_step ht hstep)
    rwa [List.append_assoc, ← returned_append] at this

/-- A reader that has hung up takes no more turns. -/
theorem done_run (hdone : s.reader = .done) (h : Run s events t) : t.reader = .done := by
  induction h with
  | nil => exact hdone
  | cons hstep _ ih =>
    refine ih ?_
    cases hstep with
    | reader h => exact absurd hdone (turned h).not_done
    | attach | pump | take | keyReady | read | readEnd => exact hdone

/-- Pending bytes stay pending until they are read. -/
theorem pending_step (hp : s.pipe.pending ≠ []) (h : Step s e t) (hread : ¬ e.IsRead) :
    t.pipe.pending ≠ [] := by
  have hpump : s.pipe.pump.pending ≠ [] := by
    unfold Pipe.pump
    split
    · exact hp
    · exact List.append_ne_nil_of_left_ne_nil hp _
  cases h with
  | reader h => exact (turned h).pending ▸ hp
  | attach => exact hp
  | pump => exact hpump
  | take h => exact List.append_ne_nil_of_left_ne_nil hp _
  | keyReady h =>
    rw [Pipe.keyReady_eq] at h
    cases h
    exact hpump
  | read | readEnd => exact absurd trivial hread

/-- By induction on the turns: between a look and the next read nothing takes
a pending byte away. -/
theorem pending_run (hp : s.pipe.pending ≠ []) (h : Run s events t)
    (hread : ∀ e ∈ events, ¬ e.IsRead) : t.pipe.pending ≠ [] := by
  induction h with
  | nil => exact hp
  | cons hstep _ ih =>
    refine ih (pending_step hp hstep (hread _ List.mem_cons_self)) ?_
    exact fun e he => hread e (List.mem_cons_of_mem _ he)

/-- A key that was found is pending, and stays so until a read. The answer
was that something is pending after the pump, and between then and the read
nothing takes it. -/
theorem ready_run (h : Run s (.keyReady true :: events) t) (hread : ∀ e ∈ events, ¬ e.IsRead) :
    t.pipe.pending ≠ [] := by
  cases h with
  | cons hready hrest =>
    refine pending_run ?_ hrest hread
    cases hready with
    | @keyReady _ p hready =>
      -- the answer is whether anything is pending after the pump
      have hanswer : (!s.pipe.pump.pending.isEmpty) = true := congrArg Prod.fst hready
      obtain rfl : s.pipe.pump = p := congrArg Prod.snd hready
      simpa using hanswer

/-! ## Nothing gets stuck -/

/-- The reader can come to where it has passed on all it has, and has hung up
if its stream ends. -/
def CanFinish (r : Reader) (p : Pipe) : Prop :=
  ∃ events t, Run ⟨r, p⟩ events t ∧ returned events = [] ∧ t.reader.unsent = [] ∧
    (r.Ends → t.reader = .done)

/-- A reader that can finish after its turn can finish. -/
theorem CanFinish.of_turn {r r' : Reader} {p p' : Pipe} (h : r.turn? p = some (r', p'))
    (hfinish : CanFinish r' p') : CanFinish r p := by
  obtain ⟨events, t, hrun, hreturned, hunsent, hdone⟩ := hfinish
  exact ⟨.reader :: events, t, .cons (.reader h) hrun, hreturned, hunsent,
    fun hends => hdone ((turned h).ends hends)⟩

theorem canFinish_done (p : Pipe) : CanFinish .done p :=
  ⟨[], ⟨.done, p⟩, .nil, rfl, rfl, fun _ => rfl⟩

/-- A reader in the middle of a chunk sends the rest of it byte by byte, and
then goes on reading. By induction on the rest. -/
theorem canFinish_sending (rest : List UInt8) {reads : List StreamRead}
    (hreading : ∀ p, CanFinish (.reading reads) p) : ∀ p, CanFinish (.sending rest reads) p := by
  induction rest with
  | nil => exact fun p => .of_turn rfl (hreading p)
  | cons b rest ih => exact fun p => .of_turn rfl (ih (p.arrive [b]))

/-- A reader goes on until a read is the last, or none is left. By induction
on the reads: behind each of them it has hung up, or there is one read less
to come. -/
theorem canFinish_reading (reads : List StreamRead) : ∀ p, CanFinish (.reading reads) p := by
  induction reads with
  | nil =>
    intro p
    refine ⟨[], ⟨.reading [], p⟩, .nil, rfl, rfl, ?_⟩
    rintro ⟨read, hread, -⟩
    cases hread
  | cons read reads ih =>
    intro p
    cases read with
    | chunk bytes fits =>
      cases bytes with
      | nil => exact .of_turn rfl (canFinish_done p.hangUp)
      | cons b bytes => exact .of_turn rfl (canFinish_sending _ ih p)
    | interrupted => exact .of_turn rfl (ih p)
    | failed => exact .of_turn rfl (canFinish_done p.hangUp)

/-- Whatever state the reader is in, its own turns lead to an end of its
work. The console has no part in that: a stream holds as many bytes as are
sent. -/
theorem canFinish (r : Reader) (p : Pipe) : CanFinish r p := by
  cases r with
  | reading reads => exact canFinish_reading reads p
  | sending rest reads => exact canFinish_sending rest (canFinish_reading reads) p
  | done => exact canFinish_done p

/-- All that has arrived can be read. By induction on the bytes that are
unread, one read for each. -/
theorem exists_run_reads (s : Feed) : ∃ events t, Run s events t ∧ t.reader = s.reader ∧
    t.pipe.unread = [] := by
  generalize hn : s.pipe.unread = bytes
  induction bytes generalizing s with
  | nil => exact ⟨[], s, .nil, rfl, hn⟩
  | cons b bytes ih =>
    obtain ⟨p, hread, hunread, -, -⟩ := Pipe.readByte?_of_unread hn
    obtain ⟨events, t, hrun, hreader, hused⟩ := ih { s with pipe := p } hunread
    refine ⟨.read b :: events, t, .cons (.read ?_ hread) hrun, hreader, hused⟩
    rw [hn]
    exact List.cons_ne_nil _ _

/-- A pump moves the waiting bytes one at a time, so it can be taken apart. -/
theorem run_take (s : Feed) :
    Run s (.replicate s.pipe.stream.length .take) { s with pipe := s.pipe.pump } := by
  obtain ⟨reader, pending, stream, closed, output, stdout⟩ := s
  induction stream generalizing pending with
  | nil => exact .nil
  | cons b stream ih =>
    have hpump : (Pipe.mk (pending ++ [b]) stream closed output stdout).pump =
        (Pipe.mk pending (b :: stream) closed output stdout).pump := by
      unfold Pipe.pump
      cases stream with
      | nil => rfl
      | cons c stream => simp
    have hrest := ih (pending ++ [b])
    rw [hpump] at hrest
    exact .cons (.take rfl) hrest

/-! ## Every reachable state -/

/-- What holds of a console and its reader when the turns `events` have been
taken, over a stream whose reads are answered by `reads`. -/
structure Delivered (reads : List StreamRead) (events : List Event) (s : Feed) : Prop where
  /-- No byte is lost, doubled or moved about. -/
  bytes : returned events ++ s.pipe.pending ++ s.pipe.stream ++ s.reader.unsent =
    StreamRead.content reads
  /-- A read takes place unless there is nothing to read and more may come. -/
  read_iff : (∃ e t, e.IsRead ∧ Step s e t) ↔
    s.pipe.pending ≠ [] ∨ s.pipe.stream ≠ [] ∨ s.reader = .done
  /-- Looking for a key never waits, and a key is ready exactly if a byte has arrived. -/
  ready_iff : ∀ answer, (∃ t, Step s (.keyReady answer) t) ↔
    (answer = true ↔ s.pipe.pending ≠ [] ∨ s.pipe.stream ≠ [])
  /-- After a key was ready, the next read does not wait and gives the next byte of the stream. -/
  ready : ∀ before after, events = before ++ .keyReady true :: after → (∀ e ∈ after, ¬ e.IsRead) →
    ∃ b rest, StreamRead.content reads = returned events ++ b :: rest ∧
      (∃ t, Step s (.read b) t) ∧ ∀ e t, e.IsRead → Step s e t → e = .read b
  /-- The end of input is read when the reader has hung up and every byte has been read. -/
  end_iff : ∀ b, (∃ t, Step s (.readEnd b) t) ↔
    b = 0xFF ∧ s.reader = .done ∧ returned events = StreamRead.content reads
  /-- After the end of input was read once, it can be read again, and nothing else is read. -/
  end_final : (∃ b, .readEnd b ∈ events) →
    (∃ t, Step s (.readEnd 0xFF) t) ∧ ∀ e t, e.IsRead → Step s e t → e = .readEnd 0xFF
  /-- The rest of the stream can still be read, and its end be reached if there is one. -/
  progress : ∃ more t, Run s more t ∧ returned (events ++ more) = StreamRead.content reads ∧
    ((∃ read ∈ reads, read.IsLast) → t.reader = .done)

theorem unread_ne_nil_iff {p : Pipe} : p.unread ≠ [] ↔ p.pending ≠ [] ∨ p.stream ≠ [] := by
  rw [Pipe.unread, ne_eq, List.append_eq_nil_iff, Classical.not_and_iff_not_or_not]

/-- A look pumps first, so its answer depends on all that has arrived and not
on where it waits. -/
theorem exists_keyReady_iff {answer : Bool} :
    (∃ t, Step s (.keyReady answer) t) ↔ (answer = true ↔ s.pipe.unread ≠ []) := by
  have hanswer : (!s.pipe.unread.isEmpty) = answer ↔ (answer = true ↔ s.pipe.unread ≠ []) := by
    cases answer <;> simp
  rw [← hanswer]
  constructor
  · intro ⟨t, h⟩
    cases h with
    | keyReady h =>
      rw [Pipe.keyReady_eq] at h
      exact congrArg Prod.fst h
  · intro h
    refine ⟨_, .keyReady (p := s.pipe.pump) ?_⟩
    rw [Pipe.keyReady_eq, h]

/-- A stream that is not used up can be read, and a read gives its first
byte. -/
theorem read_of_unread {b : UInt8} {rest : List UInt8} (hunread : s.pipe.unread = b :: rest) :
    (∃ t, Step s (.read b) t) ∧ ∀ e t, e.IsRead → Step s e t → e = .read b := by
  have harrived : s.pipe.unread ≠ [] := hunread ▸ List.cons_ne_nil b rest
  obtain ⟨p, hread, -⟩ := Pipe.readByte?_of_unread hunread
  refine ⟨⟨_, .read harrived hread⟩, ?_⟩
  intro e t he h
  cases h with
  | read _ h =>
    cases hread.symm.trans h
    rfl
  | readEnd husedUp => exact absurd husedUp harrived
  | reader | attach | pump | take | keyReady => exact he.elim

/-- A stream that is used up gives the end of input, if it is closed. -/
theorem readEnd_iff {b : UInt8} : (∃ t, Step s (.readEnd b) t) ↔
    b = 0xFF ∧ s.pipe.unread = [] ∧ s.pipe.closed = true := by
  constructor
  · intro ⟨t, h⟩
    cases h with
    | readEnd husedUp h =>
      obtain ⟨hclosed, hb, -⟩ := closed_of_readEnd husedUp h
      exact ⟨hb, husedUp, hclosed⟩
  · rintro ⟨rfl, husedUp, hclosed⟩
    refine ⟨_, .readEnd husedUp (p := s.pipe.flush) ?_⟩
    rw [Pipe.readByte?_of_unread_nil husedUp, if_pos hclosed]
    rfl

/-- When nothing is left to read, a read that takes place gives the end of
input. -/
theorem eq_readEnd_of_usedUp (husedUp : s.pipe.unread = []) (he : e.IsRead) (h : Step s e t) :
    e = .readEnd 0xFF := by
  cases h with
  | read harrived => exact absurd husedUp harrived
  | @readEnd b _ _ hread =>
    obtain ⟨-, rfl, -⟩ := closed_of_readEnd husedUp hread
    rfl
  | reader | attach | pump | take | keyReady => exact he.elim

/-- A read has to wait only if nothing has arrived and the reader has not
hung up. -/
theorem exists_isRead_iff (ht : Tally reads given s) :
    (∃ e t, e.IsRead ∧ Step s e t) ↔ s.pipe.unread ≠ [] ∨ s.reader = .done := by
  constructor
  · intro ⟨e, t, he, hstep⟩
    by_cases husedUp : s.pipe.unread = []
    · rw [eq_readEnd_of_usedUp husedUp he hstep] at hstep
      exact .inr (ht.closed.1 (readEnd_iff.1 ⟨t, hstep⟩).2.2)
    · exact .inl husedUp
  · intro hready
    cases hunread : s.pipe.unread with
    | nil =>
      have hdone := hready.resolve_left (not_not_intro hunread)
      obtain ⟨t, hstep⟩ := readEnd_iff.2 ⟨rfl, hunread, ht.closed.2 hdone⟩
      exact ⟨.readEnd 0xFF, t, trivial, hstep⟩
    | cons b rest =>
      obtain ⟨⟨t, hstep⟩, -⟩ := read_of_unread hunread
      exact ⟨.read b, t, trivial, hstep⟩

/-- When the reader has hung up, nothing is left to read once everything has
been read. -/
theorem Tally.unread_eq_nil_iff (ht : Tally reads given s) (hdone : s.reader = .done) :
    s.pipe.unread = [] ↔ given = StreamRead.content reads := by
  rw [← ht.bytes, hdone]
  simp [Reader.unsent]

/-- Once the end of input was read, the reader has hung up and nothing is
left to read. -/
theorem usedUp_of_readEnd {b : UInt8} (h : Run (start reads) events s) (hb : .readEnd b ∈ events) :
    s.reader = .done ∧ s.pipe.unread = [] := by
  obtain ⟨before, after, rfl⟩ := List.append_of_mem hb
  obtain ⟨u, hbefore, hafter⟩ := h.split
  have hu := tally_run (tally_start reads) hbefore
  have hs := tally_run (tally_start reads) h
  cases hafter with
  | cons hstep hafter =>
    obtain ⟨-, husedUp, hclosed⟩ := readEnd_iff.1 ⟨_, hstep⟩
    have hdone := hu.closed.1 hclosed
    have hall : returned before = StreamRead.content reads :=
      (hu.unread_eq_nil_iff hdone).1 husedUp
    -- everything had been read by then, so what is given and what is left since then is nothing
    have hsum := hs.bytes
    rw [List.nil_append, returned_append, List.append_assoc, hall, List.append_right_eq_self,
      List.append_eq_nil_iff, List.append_eq_nil_iff] at hsum
    refine ⟨done_run ?_ (.cons hstep hafter), hsum.2.1⟩
    exact hdone

/-- **A stream is delivered once and in order**, in whatever order its reader
and the calls on its console take their turns. -/
theorem delivered_in_order (reads : List StreamRead) {events : List Event} {s : Feed}
    (h : Run (start reads) events s) : Delivered reads events s := by
  have ht : Tally reads (returned events) s := tally_run (tally_start reads) h
  have hend : ∀ b, (∃ t, Step s (.readEnd b) t) ↔
      b = 0xFF ∧ s.reader = .done ∧ returned events = StreamRead.content reads := by
    intro b
    rw [readEnd_iff, ht.closed, and_comm (a := s.pipe.unread = [])]
    refine and_congr_right fun _ => and_congr_right fun hdone => ht.unread_eq_nil_iff hdone
  constructor
  case bytes =>
    rw [← ht.bytes, Pipe.unread]
    simp only [List.append_assoc]
  case read_iff =>
    rw [exists_isRead_iff ht, unread_ne_nil_iff, or_assoc]
  case ready_iff =>
    intro answer
    rw [exists_keyReady_iff, unread_ne_nil_iff]
  case ready =>
    rintro before after rfl hread
    obtain ⟨t, -, hafter⟩ := h.split
    have hpending := ready_run hafter hread
    obtain ⟨b, rest, hunread⟩ := List.exists_cons_of_ne_nil (unread_ne_nil_iff.2 (.inl hpending))
    refine ⟨b, rest ++ s.reader.unsent, ?_, read_of_unread hunread⟩
    rw [← ht.bytes, hunread]
    rfl
  case end_iff => exact hend
  case end_final =>
    rintro ⟨b, hb⟩
    obtain ⟨hdone, husedUp⟩ := usedUp_of_readEnd h hb
    refine ⟨readEnd_iff.2 ⟨rfl, husedUp, ht.closed.2 hdone⟩, ?_⟩
    exact fun e t he hstep => eq_readEnd_of_usedUp husedUp he hstep
  case progress =>
    -- first the reader sends what it has, and then all of it is read
    obtain ⟨reading, t, hreading, hnone, hunsent, hdone⟩ := canFinish s.reader s.pipe
    obtain ⟨last, u, hlast, hreader, hunread⟩ := exists_run_reads t
    refine ⟨reading ++ last, u, hreading.append hlast, ?_, fun hends => ?_⟩
    · have hu := tally_run ht (hreading.append hlast)
      rw [← returned_append] at hu
      rw [← hu.bytes, hunread, hreader, hunsent]
      simp
    · rw [hreader]
      exact hdone (ht.ends hends)

/-- Two chunks, the first of which ends in the byte that is also read at the
end. -/
def twoChunks : List StreamRead :=
  [.chunk [0x68, 0xFF] (by decide), .interrupted, .chunk [0x69] (by decide), .failed]

/-- A key is found while the reader is in the middle of the first chunk, and
everything is read. -/
def untilEnd : List Event :=
  [.reader, .reader, .keyReady true, .reader, .pump, .read 0x68, .read 0xFF, .keyReady false,
    .reader, .reader, .reader, .reader, .take, .reader, .reader, .read 0x69, .readEnd 0xFF]

/-- The turns can be taken, and both bytes 0xFF are read: one from the
stream, one at its end. -/
theorem delivered_in_order_twoChunks :
    ∃ s, Run (start twoChunks) untilEnd s ∧ Delivered twoChunks untilEnd s := by
  have hrun : Run (start twoChunks) untilEnd ⟨.done, { closed := true }⟩ :=
    .cons (.reader rfl) <| .cons (.reader rfl) <| .cons (.keyReady rfl) <| .cons (.reader rfl) <|
    .cons .pump <| .cons (.read nofun rfl) <| .cons (.read nofun rfl) <| .cons (.keyReady rfl) <|
    .cons (.reader rfl) <| .cons (.reader rfl) <| .cons (.reader rfl) <| .cons (.reader rfl) <|
    .cons (.take rfl) <| .cons (.reader rfl) <| .cons (.reader rfl) <| .cons (.read nofun rfl) <|
    .cons (.readEnd rfl rfl) .nil
  exact ⟨_, hrun, delivered_in_order twoChunks hrun⟩

end LC3.StreamDelivery
