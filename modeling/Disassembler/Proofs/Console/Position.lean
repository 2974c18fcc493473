import Disassembler.Proofs.Console.Traces

/-!
# The position in a listing is one number

A console shows its listing through a scroll buffer. The buffer caches rows, it belongs to one
result of a load, and it is made anew only when it is used again after the next one. None of that
shows. What is loaded and one integer are enough to say which rows are shown: a load puts the integer
at the row of the entry point, `goto` at that of an address, and `list` and `back` move it. Loads may
fail, others may use the same session meanwhile, and the integer may lie outside of the rows.

The invariant is about the buffer that the console would use next, which may not be there yet: it
caches rows of what is loaded only, and its cursor is the integer. A buffer of an earlier result is
recognised by the number of results published until then, which a session never counts back.
-/

namespace Disassembler

namespace Session

variable {s : Session} {past : List Event} {pub : List (Nat × Loaded)}

/-- What is loaded carries the number of results that were published. -/
theorem Remembers.generation_of_current (h : Remembers past pub s) {l : Loaded}
    (hl : s.current = some l) : l.generation = s.generation := by
  rw [h.current] at hl
  obtain ⟨p, -, rfl⟩ := Option.map_eq_some_iff.mp hl
  exact h.generation.symm

/-- **Another result is loaded only if more were published**, whatever happens to a session. -/
theorem Remembers.afterAll_cases (h : Remembers past pub s) (events : List Event) :
    ((s.afterAll events).generation = s.generation ∧ (s.afterAll events).current = s.current)
      ∨ s.generation < (s.afterAll events).generation := by
  have hafter := h.afterAll events
  rw [hafter.generation, h.generation, hafter.current, h.current, List.length_append]
  rcases hpublished : s.published events with _ | ⟨p, more⟩
  · rw [List.append_nil]
    exact Or.inl ⟨rfl, rfl⟩
  · exact Or.inr (by rw [List.length_cons]; omega)

/-- Something is loaded once anything was published. -/
theorem Remembers.exists_current (h : Remembers past pub s) (hpos : 0 < s.generation) :
    ∃ l, s.current = some l := by
  rw [h.generation] at hpos
  obtain ⟨p, hp⟩ := List.getLast?_isSome.mpr (List.ne_nil_of_length_pos hpos) |>
    Option.isSome_iff_exists.mp
  exact ⟨_, by rw [h.current, hp]; rfl⟩

/-- A load of a file is a history of its session, in which something is published if it succeeds. -/
theorem Remembers.loadFile (h : Remembers past pub s) {i : Option (Interruption Unit)}
    (hi : ∀ j, i = some j → ∃ es, ∀ s, (j.act s).1 = s.afterAll es) (files : Files)
    (o : LoadOptions) :
    ∃ es, (s.loadFile i files o).session = s.afterAll es
      ∧ ((s.loadFile i files o).error = none →
        s.generation < (s.loadFile i files o).session.generation) := by
  rcases loadFile_cases i files o with ⟨e, he⟩ | ⟨image, records, hload⟩
  · refine ⟨[], (he s).1, fun hnone => ?_⟩
    rw [(he s).2] at hnone
    cases hnone
  obtain ⟨hloaded, herror⟩ := hload s
  obtain ⟨es, r, hsession, hfinish⟩ := exists_afterAll_load hi s image records o.path
  refine ⟨_, hloaded.trans hsession, fun hnone => ?_⟩
  rw [herror, hfinish] at hnone
  obtain ⟨⟨l, rfl⟩, hlive⟩ := finish_eq_none_iff.mp hnone
  have hpublish : (s.loadFile i files o).session = (s.afterAll (.start :: es)).publish l := by
    rw [hloaded, hsession, Session.afterAll, List.foldl_append]
    exact congrArg Prod.fst (finish_of_isLive hlive)
  have hlater : s.generation ≤ (s.afterAll (.start :: es)).generation := by
    rcases h.afterAll_cases (.start :: es) with ⟨hsame, -⟩ | hlater
    · exact hsame.ge
    · exact hlater.le
  rw [hpublish]
  exact Nat.lt_succ_of_le hlater

end Session

/-! ## What can happen -/

namespace Console

/-- What can happen to a console: a line is said to it, and perhaps something happens to its session
in the course of the load that the line starts; or something happens to its session from elsewhere. -/
inductive Event where
  | line (text : Text) (files : Files) (meanwhile : Option (Session.Moment × List Session.Event))
  | session (e : Session.Event)

/-- Events of a session as an interruption of a load. -/
def interruption (m : Session.Moment × List Session.Event) : Session.Interruption Unit :=
  { moment := m.1, act := fun s => (s.afterAll m.2, ()) }

/-- What an event comes to. -/
def outcome (c : Console) : Event → Outcome Unit
  | .line text files meanwhile => c.process (meanwhile.map interruption) files text
  | .session e => { console := { c with session := c.session.after e }, reply := none }

/-- The console after some events. -/
def afterAll (c : Console) (events : List Event) : Console :=
  events.foldl (fun c e => (c.outcome e).console) c

end Console

/-! ## Moves -/

namespace Loaded

/-- The row of an address. An empty listing has none, and the place is zero. -/
def rowAt (l : Loaded) (a : UInt64) : Nat := if l.listing.size = 0 then 0 else l.listing.rowFor a

/-- The rows at the places from one number up to another, as far as there are any. -/
def rowsBetween (l : Loaded) (first stop : Int) : List Row :=
  ((List.range l.listing.size).filter fun i : Nat => first ≤ (i : Int) ∧ (i : Int) < stop).map
    l.listing.row

end Loaded

/-- A move in a listing. -/
inductive Move where
  | goto (a : UInt64)
  | list (count : Int)
  | back (count : Int)
  deriving DecidableEq

namespace Move

/-- The number from which on a move shows rows. -/
def first (l : Loaded) (cursor : Int) : Move → Int
  | goto a => l.rowAt a
  | list _ => cursor
  | back count => cursor - count

/-- The number up to which a move shows rows. -/
def stop (l : Loaded) (cursor : Int) : Move → Int
  | goto a => l.rowAt a + 1
  | list count => cursor + count
  | back _ => cursor

/-- Where a move leads. -/
def next (l : Loaded) (cursor : Int) : Move → Int
  | goto a => l.rowAt a
  | list count => cursor + count
  | back count => cursor - count

/-- The reply to a move to a row, which is the only one there if there is any. -/
def replyTo : List Row → Json
  | r :: _ => Reply.ok [("row", .number r.index), ("addr", .address r.address)]
  | [] => Reply.error "empty listing" []

/-- The reply to a move, with the rows that it shows. -/
def replyWith (rows : List Row) : Move → Json
  | goto _ => replyTo rows
  | list _ | back _ => Reply.rows rows

/-- What is replied to a move. -/
def reply (l : Loaded) (cursor : Int) (m : Move) : Json :=
  m.replyWith (l.rowsBetween (m.first l cursor) (m.stop l cursor))

/-- A signed 64-bit number can count the rows that a move shows. -/
def Fits (l : Loaded) (cursor : Int) (m : Move) : Prop :=
  Signed64 (m.first l cursor) ∧ Signed64 (m.stop l cursor)

end Move

/-- The move that a line asks for when something is loaded. -/
def Loaded.move? (l : Loaded) (text : Text) : Option Move :=
  let args := CommandLine.split (CommandLine.trim text)
  match Command.ofName? args.command with
  | some .goto => (args.first.bind l.address?).map .goto
  | some .list => some (.list (CommandLine.count Console.defaultRows args.first))
  | some .back => some (.back (CommandLine.count Console.defaultRows args.first))
  | _ => none

/-! ## Positions -/

/-- What is loaded, and one integer. -/
structure Position where
  current : Option Loaded := none
  cursor : Int := 0

namespace Position

/-- What was loaded between two sessions: what the later one holds, if more was published. -/
def loaded? (s s' : Session) : Option Loaded :=
  if s'.generation = s.generation then none else s'.current

/-- The position when something is loaded: the row of the entry point. -/
def ofLoaded (l : Loaded) : Position := { current := l, cursor := l.rowAt l.image.entry }

/-- The integer after an event that loads nothing: it is moved if the event is a line that asks for
it. -/
def cursorAfter (p : Position) : Console.Event → Int
  | .line text _ _ =>
    (p.current.bind fun l => (l.move? text).map fun m => m.next l p.cursor).getD p.cursor
  | .session _ => p.cursor

/-- The position after an event, with what it loads if it loads anything. -/
def next (p : Position) (loaded : Option Loaded) (e : Console.Event) : Position :=
  match loaded with
  | some l => ofLoaded l
  | none => { p with cursor := p.cursorAfter e }

theorem next_eq (p : Position) (loaded : Option Loaded) (e : Console.Event) :
    p.next loaded e = loaded.elim { p with cursor := p.cursorAfter e } ofLoaded := by
  cases loaded with
  | none => rfl
  | some l => rfl

/-- The position after some events that happen to a console. -/
def afterAll (p : Position) (c : Console) : List Console.Event → Position
  | [] => p
  | e :: rest =>
    let c' := (c.outcome e).console
    afterAll (p.next (loaded? c.session c'.session) e) c' rest

end Position

/-! ## Windows of a buffer -/

namespace ScrollBuffer

variable {source : RowSource} {b : ScrollBuffer}

/-- The rows that are got on the way are those of the source, whatever the cursor. -/
theorem passing_spec (h : b.Coherent source) (first stop c : Int) :
    (b.passing source first stop c).1
        = ((List.range source.size).filter fun i : Nat =>
            first ≤ (i : Int) ∧ (i : Int) < stop).map source.row
      ∧ (b.passing source first stop c).2.Coherent source
      ∧ (b.passing source first stop c).2.cursor = c := by
  obtain ⟨hrows, hcoherent, hcursor, -⟩ :=
    getAll_spec (h.of_cursor c) (places source first stop)
  rw [passing, ← places_eq_filter]
  exact ⟨hrows, hcoherent.trim, hcursor⟩

end ScrollBuffer

theorem wrap64_add (n k : Int) : wrap64 (wrap64 n + k) = wrap64 (n + k) := Int.bmod_add_bmod

theorem wrap64_sub (n k : Int) : wrap64 (wrap64 n - k) = wrap64 (n - k) := Int.bmod_sub_bmod

/-- A cursor is an integer, up to what does not fit into a signed 64-bit number. -/
def Tracks (cursor n : Int) : Prop := cursor = n ∨ cursor = wrap64 n

theorem Tracks.eq {cursor n : Int} (h : Tracks cursor n) (hn : Signed64 n) : cursor = n := by
  rcases h with h | h
  · exact h
  · rw [h, wrap64_eq hn]

theorem Tracks.wrap64_add {cursor n : Int} (h : Tracks cursor n) (k : Int) :
    wrap64 (cursor + k) = wrap64 (n + k) := by
  rcases h with rfl | rfl
  · rfl
  · exact Disassembler.wrap64_add n k

theorem Tracks.wrap64_sub {cursor n : Int} (h : Tracks cursor n) (k : Int) :
    wrap64 (cursor - k) = wrap64 (n - k) := by
  rcases h with rfl | rfl
  · rfl
  · exact Disassembler.wrap64_sub n k

/-- A buffer shows a listing from an integer on: what it caches are rows of the listing. -/
structure ScrollBuffer.Shows (l : Loaded) (n : Int) (b : ScrollBuffer) : Prop where
  coherent : b.Coherent l.listing.source
  tracks : Tracks b.cursor n

theorem ScrollBuffer.cursor_setAnchor (l : Loaded) (a : UInt64) (b : ScrollBuffer) :
    (b.setAnchor l.listing.source a).cursor = l.rowAt a := by
  show (if l.listing.size = 0 then 0 else (l.listing.rowFor a : Int)) = _
  rw [Loaded.rowAt]
  split
  · rfl
  · rfl

namespace Console

variable {c : Console} {l : Loaded} {n : Int}

/-! ## One move -/

theorem bufferOn_withBuffer (c : Console) (l : Loaded) (b : ScrollBuffer) :
    (c.withBuffer l b).bufferOn l = b := by
  have hview : (c.withBuffer l b).view.filter (·.generation = l.generation)
      = some { generation := l.generation, buffer := b } := by
    simp [withBuffer]
  rw [bufferOn, hview]

/-- A new buffer is at the row of the entry point. -/
theorem shows_of_new (hview : c.view.filter (·.generation = l.generation) = none) :
    (c.bufferOn l).Shows l (l.rowAt l.image.entry) := by
  rw [bufferOn, hview]
  exact ⟨(ScrollBuffer.coherent_empty _ _).trim, Or.inl (ScrollBuffer.cursor_setAnchor ..)⟩

/-- A move is made: a buffer is kept that shows the listing from where the move leads, and rows of
the listing are replied, which are those that the move shows unless a sum wraps. -/
structure Moves (c : Console) (l : Loaded) (n : Int) (m : Move) (o : Console × Json) : Prop where
  console : ∃ b, o.1 = c.withBuffer l b ∧ b.Shows l (m.next l n)
  reply : ∃ first stop, o.2 = m.replyWith (l.rowsBetween first stop)
    ∧ (m.Fits l n → first = m.first l n ∧ stop = m.stop l n)

theorem Moves.reply_eq {m : Move} {o : Console × Json} (h : c.Moves l n m o) (hm : m.Fits l n) :
    o.2 = m.reply l n := by
  obtain ⟨first, stop, hreply, hfits⟩ := h.reply
  obtain ⟨rfl, rfl⟩ := hfits hm
  exact hreply

theorem moves_moveTo (h : (c.bufferOn l).Shows l n) (a : UInt64) :
    c.Moves l n (.goto a) (c.moveTo l a) := by
  let b := ScrollBuffer.setAnchor l.listing.source a (c.bufferOn l)
  have hcoherent : b.Coherent l.listing.source := (h.coherent.of_cursor _).trim
  have hcursor : b.cursor = l.rowAt a := ScrollBuffer.cursor_setAnchor l a _
  obtain ⟨hrows, hpeeked, hkept, -⟩ := ScrollBuffer.getAll_spec hcoherent
    (ScrollBuffer.places l.listing.source b.cursor (wrap64 (b.cursor + 1)))
  refine ⟨⟨(b.peek l.listing.source 1).2, rfl, hpeeked, Or.inl (hkept.trans hcursor)⟩,
    b.cursor, wrap64 (b.cursor + 1), ?_, fun hfits => ⟨hcursor, ?_⟩⟩
  · show Move.replyTo (b.peek l.listing.source 1).1 = _
    rw [ScrollBuffer.peek, hrows, ScrollBuffer.places_eq_filter]
    rfl
  · rw [hcursor]
    exact wrap64_eq hfits.2

/-- A move that passes rows shows them, and ends where the cursor is put. -/
theorem moves_of_passing (h : (c.bufferOn l).Shows l n) {m : Move} {first stop cursor : Int}
    (hm : ∀ rows, m.replyWith rows = Reply.rows rows) (hcursor : Tracks cursor (m.next l n))
    (hfits : m.Fits l n → first = m.first l n ∧ stop = m.stop l n) :
    let passed := (c.bufferOn l).passing l.listing.source first stop cursor
    c.Moves l n m (c.withBuffer l passed.2, Reply.rows passed.1) := by
  intro passed
  obtain ⟨hrows, hcoherent, hkept⟩ :=
    ScrollBuffer.passing_spec h.coherent first stop cursor
  refine ⟨⟨passed.2, rfl, hcoherent, ?_⟩, first, stop, ?_, hfits⟩
  · show Tracks passed.2.cursor _
    rw [show passed.2.cursor = cursor from hkept]
    exact hcursor
  · rw [hm]
    exact congrArg Reply.rows hrows

theorem moves_list (h : (c.bufferOn l).Shows l n) (args : CommandLine) :
    c.Moves l n (.list (CommandLine.count defaultRows args.first))
      (c.performScroll .forward args l) := by
  refine moves_of_passing h (fun _ => rfl) (Or.inr (h.tracks.wrap64_add _)) fun hfits => ?_
  rw [h.tracks.eq hfits.1]
  exact ⟨rfl, wrap64_eq hfits.2⟩

theorem moves_back (h : (c.bufferOn l).Shows l n) (args : CommandLine) :
    c.Moves l n (.back (CommandLine.count defaultRows args.first))
      (c.performScroll .backward args l) := by
  refine moves_of_passing h (fun _ => rfl) (Or.inr (h.tracks.wrap64_sub _)) fun hfits => ?_
  generalize CommandLine.count defaultRows args.first = k at hfits ⊢
  have hfirst : wrap64 (n - k) = n - k := wrap64_eq hfits.1
  rw [h.tracks.eq hfits.2, hfirst, Int.sub_add_cancel]
  exact ⟨rfl, wrap64_eq hfits.2⟩

/-! ## Lines -/

/-- The line asks for a move, whether or not it can be made. -/
def AsksToMove (text : Text) : Prop :=
  Command.ofName? (CommandLine.split (CommandLine.trim text)).command
    ∈ [some .goto, some .list, some .back]

variable {text : Text}

/-- A line with a command carries it out. -/
theorem outcome_of_command (c : Console) {command : Command}
    (h : Command.ofName? (CommandLine.split (CommandLine.trim text)).command = some command)
    (files : Files) (meanwhile : Option (Session.Moment × List Session.Event)) :
    c.outcome (.line text files meanwhile) = c.perform (meanwhile.map interruption) files command
      (CommandLine.split (CommandLine.trim text)) := by
  rcases process_cases (meanwhile.map interruption) files text with
    ⟨command', hcommand, hprocess⟩ | ⟨hnone, -⟩
  · obtain rfl : command' = command := Option.some.inj (hcommand.symm.trans h)
    exact hprocess c
  · cases hnone.symm.trans h

theorem onLoaded_of_current (hl : c.session.current = some l) (f : Loaded → Console × Json) :
    c.onLoaded f = ({ console := (f l).1, reply := (f l).2 } : Outcome Unit) := by
  rw [onLoaded, hl]

/-- Without an address there is no move. -/
theorem performGoto_of_none (c : Console) {args : CommandLine}
    (h : args.first.bind l.address? = none) :
    ∃ message, c.performGoto l args = (c, Reply.error message []) := by
  unfold performGoto
  split
  · exact ⟨_, rfl⟩
  · rename_i word hword
    rw [hword] at h
    rw [show l.address? word = none from h]
    exact ⟨_, rfl⟩

/-- **A move that is asked for is made.** -/
theorem exists_moves (hl : c.session.current = some l) (h : (c.bufferOn l).Shows l n) {m : Move}
    (hm : l.move? text = some m) (files : Files)
    (meanwhile : Option (Session.Moment × List Session.Event)) :
    ∃ o : Console × Json, c.outcome (.line text files meanwhile)
        = { console := o.1, reply := o.2 } ∧ c.Moves l n m o := by
  rw [Loaded.move?] at hm
  rcases process_cases (meanwhile.map interruption) files text with
    ⟨command, hcommand, hprocess⟩ | ⟨hnone, -⟩
  · generalize CommandLine.split (CommandLine.trim text) = args at hm hcommand hprocess
    have hperform : c.outcome (.line text files meanwhile) = _ := hprocess c
    rw [hperform]
    simp only [hcommand] at hm
    cases command with
    | goto =>
      obtain ⟨a, ha, rfl⟩ := Option.map_eq_some_iff.mp hm
      obtain ⟨word, hword, ha⟩ := Option.bind_eq_some_iff.mp ha
      refine ⟨c.performGoto l args, onLoaded_of_current hl fun l => c.performGoto l args, ?_⟩
      have hgoto : c.performGoto l args = c.moveTo l a := by
        simp only [performGoto, hword, ha]
      rw [hgoto]
      exact moves_moveTo h a
    | list =>
      obtain rfl := Option.some.inj hm
      exact ⟨_, onLoaded_of_current hl (c.performScroll .forward args), moves_list h args⟩
    | back =>
      obtain rfl := Option.some.inj hm
      exact ⟨_, onLoaded_of_current hl (c.performScroll .backward args), moves_back h args⟩
    | load | info | lookup | symbol | resolve | hex | seeds | help | quit => cases hm
  · simp only [hnone] at hm
    cases hm

/-- What is interrupted goes on in a session in which something has happened. -/
theorem exists_afterAll_interruption
    (meanwhile : Option (Session.Moment × List Session.Event)) (j : Session.Interruption Unit)
    (hj : meanwhile.map interruption = some j) :
    ∃ es, ∀ s : Session, (j.act s).1 = s.afterAll es := by
  obtain ⟨m, -, rfl⟩ := Option.map_eq_some_iff.mp hj
  exact ⟨m.2, fun s => rfl⟩

/-- Nothing moves: the view stays, and all that happens happens to the session. -/
structure Stays (c : Console) (o : Outcome Unit) : Prop where
  view : o.console.view = c.view
  session : ∃ es, o.console.session = c.session.afterAll es

theorem stays_of_eq {o : Outcome Unit} (ho : o.console = c) : c.Stays o := by
  subst ho
  exact ⟨rfl, [], rfl⟩

theorem stays_performLoad {past : List Session.Event} {pub : List (Nat × Loaded)}
    (h : Session.Remembers past pub c.session) {i : Option (Session.Interruption Unit)}
    (hi : ∀ j, i = some j → ∃ es, ∀ s : Session, (j.act s).1 = s.afterAll es) (files : Files)
    (args : CommandLine) :
    c.Stays (c.performLoad i files args)
      ∧ (¬ Refused (c.performLoad i files args).reply →
        c.session.generation < (c.performLoad i files args).console.session.generation) := by
  unfold performLoad
  split
  · exact ⟨stays_of_eq rfl, fun hdone => absurd rfl hdone⟩
  split
  · exact ⟨stays_of_eq rfl, fun hdone => absurd rfl hdone⟩
  rename_i o _
  obtain ⟨es, hes, hpublished⟩ := h.loadFile hi files o
  refine ⟨⟨rfl, es, hes⟩, fun hdone => hpublished ?_⟩
  by_contra herror
  obtain ⟨e, he⟩ := Option.ne_none_iff_exists'.mp herror
  simp only [he] at hdone
  exact hdone rfl

theorem stays_onLoaded {f : Loaded → Console × Json}
    (hf : ∀ l, c.session.current = some l → (f l).1 = c) : c.Stays (c.onLoaded f) := by
  rw [onLoaded]
  split
  · rename_i l hl
    exact stays_of_eq (hf l hl)
  · exact stays_of_eq rfl

/-- **Without a move the view stays.** -/
theorem stays_outcome {past : List Session.Event} {pub : List (Nat × Loaded)}
    (h : Session.Remembers past pub c.session)
    (hm : ∀ l, c.session.current = some l → l.move? text = none) (files : Files)
    (meanwhile : Option (Session.Moment × List Session.Event)) :
    c.Stays (c.outcome (.line text files meanwhile)) := by
  simp only [Loaded.move?] at hm
  rcases process_cases (meanwhile.map interruption) files text with
    ⟨command, hcommand, hprocess⟩ | ⟨-, reply, hprocess⟩
  · generalize CommandLine.split (CommandLine.trim text) = args at hm hcommand hprocess
    have hperform : c.outcome (.line text files meanwhile) = _ := hprocess c
    rw [hperform]
    simp only [hcommand] at hm
    cases command with
    | load => exact (stays_performLoad h (exists_afterAll_interruption meanwhile) files args).1
    | goto =>
      refine stays_onLoaded (f := fun l => c.performGoto l args) fun l hl => ?_
      obtain ⟨message, hgoto⟩ := performGoto_of_none c (Option.map_eq_none_iff.mp (hm l hl))
      rw [hgoto]
    | list =>
      exact stays_onLoaded (f := c.performScroll .forward args) fun l hl =>
        absurd (hm l hl) (Option.some_ne_none _)
    | back =>
      exact stays_onLoaded (f := c.performScroll .backward args) fun l hl =>
        absurd (hm l hl) (Option.some_ne_none _)
    | info | lookup | symbol | resolve | hex | seeds | help =>
      exact stays_of_eq (console_perform _ files args rfl)
    | quit => exact ⟨rfl, [], rfl⟩
  · have hline : c.outcome (.line text files meanwhile) = _ := hprocess c
    rw [hline]
    exact stays_of_eq rfl

/-- A move that is asked for and cannot be made is refused. -/
theorem refused_of_asksToMove (hasks : AsksToMove text)
    (hm : ∀ l, c.session.current = some l → l.move? text = none) (files : Files)
    (meanwhile : Option (Session.Moment × List Session.Event)) :
    Refused (c.outcome (.line text files meanwhile)).reply := by
  rw [AsksToMove] at hasks
  simp only [Loaded.move?] at hm
  rcases process_cases (meanwhile.map interruption) files text with
    ⟨command, hcommand, hprocess⟩ | ⟨hnone, -⟩
  · generalize CommandLine.split (CommandLine.trim text) = args at hasks hm hcommand hprocess
    have hperform : c.outcome (.line text files meanwhile) = _ := hprocess c
    rw [hperform]
    rw [hcommand] at hasks
    simp only [hcommand] at hm
    rcases hl : c.session.current with _ | l
    · have hnothing : ∀ f, Refused (c.onLoaded f : Outcome Unit).reply := by
        intro f
        rw [onLoaded, hl]
        rfl
      cases command with
      | goto | list | back => exact hnothing _
      | load | info | lookup | symbol | resolve | hex | seeds | help | quit =>
        exact absurd hasks (by decide)
    · cases command with
      | goto =>
        obtain ⟨message, hgoto⟩ := performGoto_of_none c (Option.map_eq_none_iff.mp (hm l hl))
        show Refused (c.onLoaded fun l => c.performGoto l args : Outcome Unit).reply
        rw [onLoaded_of_current hl, hgoto]
        rfl
      | list | back => exact absurd (hm l hl) (Option.some_ne_none _)
      | load | info | lookup | symbol | resolve | hex | seeds | help | quit =>
        exact absurd hasks (by decide)
  · rw [hnone] at hasks
    exact absurd hasks (by decide)

/-! ## The invariant -/

/-- **The invariant.** A console stands at a position: what is loaded is that of the position, no
view is of a result to come, and the buffer that will be used next shows the listing from the
integer on. -/
structure Stands (c : Console) (p : Position) : Prop where
  history : ∃ past pub, Session.Remembers past pub c.session
  current : c.session.current = p.current
  viewed : ∀ v, c.view = some v → v.generation ≤ c.session.generation
  shows : ∀ l, c.session.current = some l → (c.bufferOn l).Shows l p.cursor

variable {p : Position}

theorem stands_new (config : Config) (defaults : LoadOptions) :
    Stands { session := { config }, defaults } {} where
  history := ⟨[], [], Session.remembers_new config⟩
  current := rfl
  viewed := fun v hv => by cases hv
  shows := fun l hl => by cases hl

theorem Stands.of_moves (h : c.Stands p) (hl : c.session.current = some l) {m : Move}
    {o : Console × Json} (hmoves : c.Moves l p.cursor m o) :
    Stands o.1 { p with cursor := m.next l p.cursor } := by
  obtain ⟨past, pub, hpast⟩ := h.history
  obtain ⟨b, hconsole, hshows⟩ := hmoves.console
  rw [hconsole]
  refine ⟨⟨past, pub, hpast⟩, h.current, fun v hv => ?_, fun l' hl' => ?_⟩
  · obtain rfl := Option.some.inj hv
    exact (hpast.generation_of_current hl).le
  · obtain rfl : l = l' := Option.some.inj (hl.symm.trans hl')
    rw [bufferOn_withBuffer]
    exact hshows

theorem Stands.of_stays (h : c.Stands p) {o : Outcome Unit} (hstays : c.Stays o) :
    Stands o.console
      ((Position.loaded? c.session o.console.session).elim p Position.ofLoaded) := by
  obtain ⟨past, pub, hpast⟩ := h.history
  obtain ⟨hview, es, hes⟩ := hstays
  have hafter := hpast.afterAll es
  rw [← hes] at hafter
  rcases hpast.afterAll_cases es with ⟨hgeneration, hcurrent⟩ | hlater
  · -- nothing was loaded, and the same buffer is used next
    rw [← hes] at hgeneration hcurrent
    rw [Position.loaded?, if_pos hgeneration]
    refine ⟨⟨_, _, hafter⟩, hcurrent.trans h.current, fun v hv => ?_, fun l hl => ?_⟩
    · rw [hgeneration]
      exact h.viewed v (hview ▸ hv)
    · rw [bufferOn, hview]
      exact h.shows l (hcurrent ▸ hl)
  · -- the view is of an earlier result, so the next buffer is a new one
    rw [← hes] at hlater
    obtain ⟨l, hl⟩ := hafter.exists_current (Nat.zero_lt_of_lt hlater)
    rw [Position.loaded?, if_neg hlater.ne', hl]
    refine ⟨⟨_, _, hafter⟩, hl, fun v hv => ?_, fun l' hl' => ?_⟩
    · exact (h.viewed v (hview ▸ hv)).trans hlater.le
    · obtain rfl : l = l' := Option.some.inj (hl.symm.trans hl')
      refine shows_of_new (Option.filter_eq_none_iff.mpr fun v hv => ?_)
      have hviewed := h.viewed v (hview ▸ hv)
      rw [hafter.generation_of_current hl, decide_eq_true_eq]
      omega

/-- **What happens to a console happens to its position.** -/
theorem Stands.next (h : c.Stands p) (e : Event) :
    let c' := (c.outcome e).console
    c'.Stands (p.next (Position.loaded? c.session c'.session) e) := by
  intro c'
  obtain ⟨past, pub, hpast⟩ := h.history
  cases e with
  | session e =>
    have hstands := h.of_stays (o := c.outcome (.session e)) ⟨rfl, [e], rfl⟩
    rw [Position.next_eq]
    exact hstands
  | line text files meanwhile =>
    by_cases hmove : ∃ l m, c.session.current = some l ∧ l.move? text = some m
    · obtain ⟨l, m, hl, hm⟩ := hmove
      obtain ⟨o, ho, hmoves⟩ := exists_moves hl (h.shows l hl) hm files meanwhile
      have hconsole : c' = o.1 := congrArg Outcome.console ho
      have hloaded : Position.loaded? c.session c'.session = none := by
        obtain ⟨b, hb, -⟩ := hmoves.console
        rw [hconsole, hb]
        exact if_pos rfl
      have hcursor : p.cursorAfter (.line text files meanwhile) = m.next l p.cursor := by
        rw [Position.cursorAfter, ← h.current, hl, Option.bind_some, hm]
        rfl
      rw [hloaded, hconsole, Position.next, hcursor]
      exact h.of_moves hl hmoves
    · have hnone : ∀ l, c.session.current = some l → l.move? text = none := by
        intro l hl
        by_contra hm
        obtain ⟨m, hm⟩ := Option.ne_none_iff_exists'.mp hm
        exact hmove ⟨l, m, hl, hm⟩
      have hcursor : p.cursorAfter (.line text files meanwhile) = p.cursor := by
        rw [Position.cursorAfter, ← h.current]
        rcases hl : c.session.current with _ | l
        · rfl
        · rw [Option.bind_some, hnone l hl]
          rfl
      rw [Position.next_eq, hcursor]
      exact h.of_stays (stays_outcome hpast hnone files meanwhile)

/-- **A console stands at its position after every history.** -/
theorem Stands.afterAll (h : c.Stands p) (events : List Event) :
    (c.afterAll events).Stands (p.afterAll c events) := by
  induction events generalizing c p with
  | nil => exact h
  | cons e rest ih => exact ih (h.next e)

/-- Something is loaded from elsewhere. -/
def loading (l : Loaded) : List Event := [.session .start, .session (.finish 0 (.ok l))]

theorem current_loading (l : Loaded) :
    (({} : Console).afterAll (loading l)).session.current = some { l with generation := 1 } := rfl

/-! ## How far a position is from the listing -/

theorem count_bounds (word : Option Text) :
    0 < CommandLine.count defaultRows word ∧ CommandLine.count defaultRows word ≤ 1000 := by
  unfold CommandLine.count
  split
  · decide
  · dsimp only [defaultRows, CommandLine.maxCount]
    split
    · omega
    · omega

end Console

namespace Loaded

variable {l : Loaded}

/-- What was built has a row for every address. -/
theorem Built.rowAt_eq (h : l.Built) (a : UInt64) : l.rowAt a = l.listing.rowFor a :=
  if_neg (Nat.ne_of_gt (Nat.zero_lt_of_lt (Console.rowFor_lt_size_of_built h a)))

theorem Built.rowAt_lt (h : l.Built) (a : UInt64) : l.rowAt a < l.listing.size := by
  rw [h.rowAt_eq]
  exact Console.rowFor_lt_size_of_built h a

/-- A move is to a row, or by no more than 1000 rows. -/
theorem move?_cases {text : Text} {m : Move} (h : l.move? text = some m) :
    (∃ a, m = .goto a) ∨ ∃ k : Int, 0 < k ∧ k ≤ 1000 ∧ (m = .list k ∨ m = .back k) := by
  simp only [move?] at h
  generalize CommandLine.split (CommandLine.trim text) = args at h
  obtain ⟨hpos, hle⟩ := Console.count_bounds args.first
  split at h
  · obtain ⟨a, -, rfl⟩ := Option.map_eq_some_iff.mp h
    exact Or.inl ⟨a, rfl⟩
  · exact Or.inr ⟨_, hpos, hle, Or.inl (Option.some.inj h).symm⟩
  · exact Or.inr ⟨_, hpos, hle, Or.inr (Option.some.inj h).symm⟩
  · cases h

end Loaded

namespace Position

variable {p : Position} {k : Nat}

/-- In so many events a position has not gone farther from the rows than 1000 in each. -/
def Within (p : Position) (k : Nat) : Prop :=
  ∀ l, p.current = some l → l.Built →
    -(1000 * k : Int) ≤ p.cursor ∧ p.cursor ≤ l.listing.size + 1000 * k

theorem Within.mono (h : p.Within k) : p.Within (k + 1) := by
  intro l hl hbuilt
  have hnear := h l hl hbuilt
  omega

theorem Within.next (h : p.Within k) (loaded : Option Loaded) (e : Console.Event) :
    (p.next loaded e).Within (k + 1) := by
  cases loaded with
  | some l =>
    intro l' hl' hbuilt
    obtain rfl : l = l' := Option.some.inj hl'
    have hrow := hbuilt.rowAt_lt l.image.entry
    show -(1000 * (k + 1 : Nat) : Int) ≤ (l.rowAt l.image.entry : Int)
      ∧ (l.rowAt l.image.entry : Int) ≤ _
    omega
  | none =>
    cases e with
    | session e => exact h.mono
    | line text files meanwhile =>
      intro l hl hbuilt
      have hl : p.current = some l := hl
      have hnear := h l hl hbuilt
      have hcursor : (p.next none (.line text files meanwhile)).cursor
          = ((l.move? text).map fun m => m.next l p.cursor).getD p.cursor := by
        show (p.current.bind _).getD _ = _
        rw [hl]
        rfl
      rw [hcursor]
      rcases hm : l.move? text with _ | m
      · exact h.mono l hl hbuilt
      rcases Loaded.move?_cases hm with ⟨a, rfl⟩ | ⟨n, hpos, hle, rfl | rfl⟩
      · have hrow := hbuilt.rowAt_lt a
        show -(1000 * (k + 1 : Nat) : Int) ≤ (l.rowAt a : Int) ∧ (l.rowAt a : Int) ≤ _
        omega
      · show -(1000 * (k + 1 : Nat) : Int) ≤ p.cursor + n ∧ p.cursor + n ≤ _
        omega
      · show -(1000 * (k + 1 : Nat) : Int) ≤ p.cursor - n ∧ p.cursor - n ≤ _
        omega

theorem Within.afterAll (h : p.Within k) (c : Console) (events : List Console.Event) :
    (p.afterAll c events).Within (k + events.length) := by
  induction events generalizing c p k with
  | nil => exact h
  | cons e rest ih =>
    have hrest := ih (h.next (loaded? c.session (c.outcome e).console.session) e)
      (c.outcome e).console
    rwa [Nat.add_assoc, Nat.add_comm 1] at hrest

/-- **In fewer than `2 ^ 52` events no position leaves the signed 64-bit numbers.** -/
theorem Within.fits (h : p.Within k) {l : Loaded} (hl : p.current = some l) (hbuilt : l.Built)
    (hsize : l.listing.size < 2 ^ 62) (hk : k < 2 ^ 52) {text : Text} {m : Move}
    (hm : l.move? text = some m) : m.Fits l p.cursor := by
  have hnear := h l hl hbuilt
  rcases Loaded.move?_cases hm with ⟨a, rfl⟩ | ⟨n, hpos, hle, rfl | rfl⟩
  · have hrow := hbuilt.rowAt_lt a
    show Signed64 (l.rowAt a) ∧ Signed64 (l.rowAt a + 1)
    simp only [Signed64]
    omega
  · show Signed64 p.cursor ∧ Signed64 (p.cursor + n)
    simp only [Signed64]
    omega
  · show Signed64 (p.cursor - n) ∧ Signed64 p.cursor
    simp only [Signed64]
    omega

end Position

namespace Console

variable {c : Console} {p : Position}

/-- **A load sets the position exactly if it succeeds.** With a load that fails, only what happens
meanwhile can. -/
theorem Stands.next_of_load (h : c.Stands p) {text : Text}
    (hload : Command.ofName? (CommandLine.split (CommandLine.trim text)).command = some .load)
    (files : Files) (meanwhile : Option (Session.Moment × List Session.Event)) :
    let o := c.outcome (.line text files meanwhile)
    let p' := p.next (Position.loaded? c.session o.console.session) (.line text files meanwhile)
    (¬ Refused o.reply → ∃ l, o.console.session.current = some l ∧ p' = Position.ofLoaded l)
      ∧ (Refused o.reply → meanwhile = none → p' = p) := by
  intro o p'
  obtain ⟨past, pub, hpast⟩ := h.history
  have hperform : o = c.performLoad (meanwhile.map interruption) files _ :=
    c.outcome_of_command hload files meanwhile
  generalize hargs : CommandLine.split (CommandLine.trim text) = args at hload hperform
  obtain ⟨hstays, hpublished⟩ :=
    stays_performLoad hpast (exists_afterAll_interruption meanwhile) files args
  rw [← hperform] at hstays hpublished
  refine ⟨fun hdone => ?_, fun hrefused hmeanwhile => ?_⟩
  · have hlater := hpublished hdone
    obtain ⟨es, hes⟩ := hstays.session
    have hafter := hpast.afterAll es
    rw [← hes] at hafter
    obtain ⟨l, hl⟩ := hafter.exists_current (Nat.zero_lt_of_lt hlater)
    refine ⟨l, hl, ?_⟩
    simp only [p', Position.loaded?, if_neg hlater.ne', hl]
    rfl
  · subst hmeanwhile
    rw [hperform] at hrefused
    have halike : c.Alike o.console := by
      rw [hperform]
      exact alike_performLoad (m := none) hrefused
    have hloaded : Position.loaded? c.session o.console.session = none :=
      if_pos halike.session.generation
    have hnomove : ∀ l : Loaded, l.move? text = none := by
      intro l
      simp only [Loaded.move?, hargs, hload]
    have hcursor : p.cursorAfter (.line text files none) = p.cursor := by
      rw [Position.cursorAfter]
      simp only [hnomove, Option.map_none]
      cases p.current with
      | none => rfl
      | some l => rfl
    simp only [p', hloaded, Position.next_eq, hcursor]
    rfl

end Console

end Disassembler
