import Disassembler.Console
import Disassembler.Proofs.Alike
import Disassembler.Proofs.Places
import Disassembler.Proofs.Scroll

/-!
# Questions and failures leave no trace

A question is answered from what is loaded, and a command that is refused does nothing. Neither can
be noticed later: whatever is said to the console next, it replies as if the line had never been.
The console itself does not stay the same, for a load that fails takes a ticket. So two things are
proved: such a turn leaves a console *alike*, and alike consoles cannot be told apart. The one
refusal that comes after a move is that of `goto` in an empty listing, and no listing is empty.
-/

namespace Disassembler

/-- Is a command one that only asks for something? -/
def Command.isQuestion : Command → Bool
  | info | help | lookup | symbol | resolve | hex | seeds => true
  | load | goto | list | back | quit => false

namespace Console

/-! ## Conversations -/

/-- A line that is said to a console. -/
structure Turn where
  line : Text
  /-- The files as they are then. -/
  files : Files
  /-- When the load is cancelled that the line starts, if it is. -/
  cancel : Option Session.Moment := none

/-- What a turn comes to. -/
def turn (c : Console) (t : Turn) : Outcome Unit :=
  c.process (t.cancel.map Session.cancelAt) t.files t.line

/-- What is seen of a conversation: each reply, and whether the console is running after it. -/
def converse (c : Console) : List Turn → List (Option Json × Bool)
  | [] => []
  | t :: rest =>
    ((c.turn t).reply, (c.turn t).console.running) :: converse (c.turn t).console rest

/-- The line is a question, or no command at all. -/
def Asks (line : Text) : Prop :=
  ∀ command, Command.ofName? (CommandLine.split (CommandLine.trim line)).command = some command →
    command.isQuestion = true

/-- What a reply says first, if that is true or false. -/
def verdict? : Json → Option (String × Bool)
  | .object ((key, .bool done) :: _) => some (key, done)
  | _ => none

/-- The reply says that the command was not carried out. -/
def Refused (reply : Option Json) : Prop := reply.bind verdict? = some ("ok", false)

instance (reply : Option Json) : Decidable (Refused reply) :=
  inferInstanceAs (Decidable (_ = _))

/-- Consoles are alike if their sessions are and all else is the same. -/
structure Alike (c c' : Console) : Prop where
  session : c.session.Alike c'.session
  defaults : c'.defaults = c.defaults
  view : c'.view = c.view
  running : c'.running = c.running

variable {c c' : Console} {m : Option Session.Moment} {files : Files} {l : Loaded}
variable {args : CommandLine} {a : UInt64}

theorem Alike.refl (c : Console) : c.Alike c := ⟨⟨rfl, rfl, rfl⟩, rfl, rfl, rfl⟩

/-- A line has a command, which is carried out, or it has none and leaves every console to itself. -/
theorem process_cases (i : Option (Session.Interruption Unit)) (files : Files) (line : Text) :
    let args := CommandLine.split (CommandLine.trim line)
    (∃ command, Command.ofName? args.command = some command
        ∧ ∀ c : Console, c.process i files line = c.perform i files command args)
      ∨ Command.ofName? args.command = none
        ∧ ∃ reply, ∀ c : Console, c.process i files line = { console := c, reply } := by
  intro args
  by_cases hline : (CommandLine.trim line).isEmpty = true
  · refine Or.inr ⟨?_, none, fun c => by rw [process, if_pos hline]⟩
    rw [show args = CommandLine.split [] from
      congrArg CommandLine.split (List.isEmpty_iff.mp hline)]
    rfl
  rcases hcommand : Command.ofName? args.command with _ | command
  · refine Or.inr ⟨rfl, some (unknownReply args.command), fun c => ?_⟩
    rw [process, if_neg hline]
    simp only [args] at hcommand ⊢
    simp only [hcommand]
  · refine Or.inl ⟨command, rfl, fun c => ?_⟩
    rw [process, if_neg hline]
    simp only [args] at hcommand ⊢
    simp only [hcommand]

/-- A turn carries out a command, or it has none and leaves the console to itself. -/
theorem turn_cases (t : Turn) :
    (∃ command args, Command.ofName? (CommandLine.split (CommandLine.trim t.line)).command
          = some command
        ∧ ∀ c : Console, c.turn t = c.perform (t.cancel.map Session.cancelAt) t.files command args)
      ∨ ∃ reply, ∀ c : Console, c.turn t = { console := c, reply } := by
  rcases process_cases (t.cancel.map Session.cancelAt) t.files t.line with
    ⟨command, hcommand, hprocess⟩ | ⟨-, hprocess⟩
  · exact Or.inl ⟨command, _, hcommand, hprocess⟩
  · exact Or.inr hprocess

/-- What holds of a console, and of whatever a command makes of it, holds after the command. -/
theorem onLoaded_of_forall {P : Console → Prop} {f : Loaded → Console × Json} (hc : P c)
    (hf : ∀ l, P (f l).1) : P (c.onLoaded f : Outcome Unit).console := by
  rw [onLoaded]
  split
  · exact hf _
  · exact hc

/-! ## Alike consoles -/

theorem Alike.bufferOn (h : c.Alike c') (l : Loaded) : c'.bufferOn l = c.bufferOn l := by
  rw [Console.bufferOn, Console.bufferOn, h.view]

theorem Alike.withBuffer (h : c.Alike c') (l : Loaded) (b : ScrollBuffer) :
    (c.withBuffer l b).Alike (c'.withBuffer l b) := ⟨h.session, h.defaults, rfl, h.running⟩

/-- Two consoles with their replies agree. -/
def Agree (p p' : Console × Json) : Prop := p.1.Alike p'.1 ∧ p'.2 = p.2

theorem Alike.performGoto (h : c.Alike c') (l : Loaded) (args : CommandLine) :
    Agree (c.performGoto l args) (c'.performGoto l args) := by
  unfold Console.performGoto
  split
  · exact ⟨h, rfl⟩
  split
  · rw [moveTo, moveTo, h.bufferOn]
    exact ⟨h.withBuffer _ _, rfl⟩
  · exact ⟨h, rfl⟩

theorem Alike.performScroll (h : c.Alike c') (d : ScrollBuffer.Direction) (args : CommandLine)
    (l : Loaded) : Agree (c.performScroll d args l) (c'.performScroll d args l) := by
  rw [Console.performScroll, Console.performScroll, scroll, scroll, h.bufferOn]
  exact ⟨h.withBuffer _ _, rfl⟩

/-- Two turns come to the same. -/
def Outcome.Agree (o o' : Outcome Unit) : Prop := o.console.Alike o'.console ∧ o'.reply = o.reply

theorem Alike.onLoaded (h : c.Alike c') {f f' : Loaded → Console × Json}
    (hf : ∀ l, Console.Agree (f l) (f' l)) : (c.onLoaded f).Agree (c'.onLoaded f') := by
  rw [Console.onLoaded, Console.onLoaded, h.session.current]
  split
  · exact ⟨(hf _).1, congrArg some (hf _).2⟩
  · exact ⟨h, rfl⟩

theorem Alike.performLoad (h : c.Alike c') (m : Option Session.Moment) (files : Files)
    (args : CommandLine) :
    (c.performLoad (m.map Session.cancelAt) files args).Agree
      (c'.performLoad (m.map Session.cancelAt) files args) := by
  have hoptions : ∀ path, c'.loadOptions path args = c.loadOptions path args := by
    intro path
    rw [loadOptions, loadOptions, h.defaults]
  unfold Console.performLoad
  split
  · exact ⟨h, rfl⟩
  rw [hoptions]
  split
  · exact ⟨h, rfl⟩
  · rename_i o _
    obtain ⟨hsession, herror⟩ := h.session.loadFile m files o
    refine ⟨⟨hsession, h.defaults, h.view, h.running⟩, ?_⟩
    simp only [herror, hsession.current]

theorem Alike.perform (h : c.Alike c') (m : Option Session.Moment) (files : Files)
    (command : Command) (args : CommandLine) :
    (c.perform (m.map Session.cancelAt) files command args).Agree
      (c'.perform (m.map Session.cancelAt) files command args) := by
  cases command with
  | load => exact h.performLoad m files args
  | goto => exact h.onLoaded fun l => h.performGoto l args
  | list => exact h.onLoaded fun l => h.performScroll .forward args l
  | back => exact h.onLoaded fun l => h.performScroll .backward args l
  | info | lookup | symbol | resolve | hex | seeds => exact h.onLoaded fun l => ⟨h, rfl⟩
  | help => exact ⟨h, rfl⟩
  | quit => exact ⟨⟨h.session, h.defaults, h.view, rfl⟩, rfl⟩

/-- **Alike consoles reply alike, and stay alike.** -/
theorem Alike.turn (h : c.Alike c') (t : Turn) : (c.turn t).Agree (c'.turn t) := by
  rcases turn_cases t with ⟨command, args, -, hturn⟩ | ⟨reply, hturn⟩
  · rw [hturn, hturn]
    exact h.perform t.cancel t.files command args
  · rw [hturn, hturn]
    exact ⟨h, rfl⟩

/-- **Alike consoles cannot be told apart** by whatever is said to them. -/
theorem Alike.converse (h : c.Alike c') (later : List Turn) :
    c'.converse later = c.converse later := by
  induction later generalizing c c' with
  | nil => rfl
  | cons t rest ih =>
    obtain ⟨hconsole, hreply⟩ := h.turn t
    rw [Console.converse, Console.converse, ih hconsole, hreply, hconsole.running]

/-! ## Questions -/

theorem console_perform (i : Option (Session.Interruption Unit)) (files : Files)
    {command : Command} (args : CommandLine) (h : command.isQuestion = true) :
    (c.perform i files command args).console = c := by
  cases command with
  | help => rfl
  | info | lookup | symbol | resolve | hex | seeds =>
    exact onLoaded_of_forall (P := (· = c)) rfl fun l => rfl
  | load | goto | list | back | quit => exact Bool.noConfusion h

/-- **A question leaves the console as it is.** -/
theorem console_turn {t : Turn} (h : Asks t.line) : (c.turn t).console = c := by
  rcases turn_cases t with ⟨command, args, hcommand, hturn⟩ | ⟨reply, hturn⟩
  · rw [hturn]
    exact console_perform _ t.files args (h command hcommand)
  · rw [hturn]

/-! ## What is loaded -/

theorem session_performGoto (c : Console) (l : Loaded) (args : CommandLine) :
    (c.performGoto l args).1.session = c.session := by
  unfold performGoto
  split
  · rfl
  split
  · rfl
  · rfl

/-- Only a load has to do with the session. -/
theorem session_perform (i : Option (Session.Interruption Unit)) (files : Files)
    {command : Command} (args : CommandLine) (h : command ≠ .load) :
    (c.perform i files command args).console.session = c.session := by
  have hkept : ∀ {f : Loaded → Console × Json}, (∀ l, (f l).1.session = c.session) →
      (c.onLoaded f : Outcome Unit).console.session = c.session :=
    fun {_} => onLoaded_of_forall (P := (·.session = c.session)) rfl
  cases command with
  | load => exact absurd rfl h
  | goto => exact hkept fun l => session_performGoto c l args
  | list | back | info | lookup | symbol | resolve | hex | seeds => exact hkept fun l => rfl
  | help | quit => rfl

theorem built_performLoad (h : ∀ l, c.session.current = some l → l.Built)
    (hl : (c.performLoad (m.map Session.cancelAt) files args).console.session.current = some l) :
    l.Built := by
  unfold performLoad at hl
  split at hl
  · exact h l hl
  split at hl
  · exact h l hl
  · exact Session.built_loadFile h m hl

/-- **A console holds nothing but what was built from an image**, whatever is said to it. -/
theorem built_turn (h : ∀ l, c.session.current = some l → l.Built) (t : Turn)
    (hl : (c.turn t).console.session.current = some l) : l.Built := by
  rcases turn_cases t with ⟨command, args, -, hturn⟩ | ⟨reply, hturn⟩
  · rw [hturn] at hl
    by_cases hload : command = .load
    · subst hload
      exact built_performLoad h hl
    · rw [session_perform _ t.files args hload] at hl
      exact h l hl
  · rw [hturn] at hl
    exact h l hl

/-- The listing of what was built is that of an analysis with code. -/
theorem exists_listing_of_built (h : l.Built) :
    ∃ an records, l.listing = Listing.build an records
      ∧ ∃ s, s ∈ an.image.sections.toList.filter (·.executable) := by
  obtain ⟨conditions, config, image, records, name, b, hb, heq⟩ := h
  rw [Loaded.build] at hb
  split at hb
  · cases hb
  · rename_i an hrun
    obtain rfl := Except.ok.inj hb
    have hcode := Analysis.exists_code hrun
    obtain ⟨machine, p, -, -, rfl⟩ := Analysis.reached_of_run hrun
    exact ⟨p.finish image machine, records, congrArg Loaded.listing heq, hcode⟩

/-- The listing of what was built is not empty, so it has a row for every address. -/
theorem rowFor_lt_size_of_built (h : l.Built) (a : UInt64) :
    l.listing.rowFor a < l.listing.size := by
  obtain ⟨an, records, hlisting, hcode⟩ := exists_listing_of_built h
  rw [hlisting]
  exact Listing.rowFor_lt_size (Listing.indexed_build an records)
    (Listing.size_pos_build records hcode) a

/-- That row is not the first one. -/
theorem rowFor_pos_of_built (h : l.Built) (a : UInt64) : 0 < l.listing.rowFor a := by
  obtain ⟨an, records, hlisting, hcode⟩ := exists_listing_of_built h
  obtain ⟨hsize, s, hopening⟩ := Listing.exists_opening_build records hcode
  rw [hlisting]
  exact Listing.rowFor_pos (Listing.indexed_build an records) hopening hsize a

/-! ## Refusals -/

theorem not_refused_ok (members : List (String × Json)) : ¬ Refused (some (Reply.ok members)) := by
  simp [Refused, verdict?, Reply.ok]

/-- **A move succeeds**, for the row that is moved to is there to be shown. -/
theorem exists_reply_moveTo (c : Console) (hrow : l.listing.rowFor a < l.listing.size)
    (hsize : l.listing.size < 2 ^ 63) : ∃ members, (c.moveTo l a).2 = Reply.ok members := by
  let b := ScrollBuffer.setAnchor l.listing.source a (c.bufferOn l)
  have hcursor : b.cursor = l.listing.rowFor a := by
    have hpos : l.listing.source.size ≠ 0 := Nat.ne_of_gt (Nat.zero_lt_of_lt hrow)
    exact if_neg hpos
  have hplaces : ScrollBuffer.places l.listing.source b.cursor (wrap64 (b.cursor + 1))
      = [l.listing.rowFor a] := by
    have hsource : l.listing.source.size = l.listing.size := rfl
    have hsigned : Signed64 ((l.listing.rowFor a : Int) + 1) := ⟨by omega, by omega⟩
    rw [hcursor, wrap64_eq hsigned, ScrollBuffer.places, hsource]
    have hlow : (max (l.listing.rowFor a : Int) 0).toNat = l.listing.rowFor a := by omega
    have hone : (min ((l.listing.rowFor a : Int) + 1) l.listing.size
        - max (l.listing.rowFor a : Int) 0).toNat = 1 := by omega
    rw [hlow, hone]
    rfl
  have hrows : (b.peek l.listing.source 1).1
      = [(b.get l.listing.source (l.listing.rowFor a)).1] := by
    rw [ScrollBuffer.peek, hplaces]
    rfl
  rw [moveTo]
  dsimp only
  rw [hrows]
  exact ⟨_, rfl⟩

theorem alike_performGoto (hbuilt : l.Built) (hsize : l.listing.size < 2 ^ 63)
    (h : Refused (some (c.performGoto l args).2)) : c.Alike (c.performGoto l args).1 := by
  rw [performGoto] at h ⊢
  split
  · exact Alike.refl c
  rename_i word hword
  rw [hword] at h
  dsimp only at h
  split
  · rename_i a haddress
    obtain ⟨members, hreply⟩ := exists_reply_moveTo c (rowFor_lt_size_of_built hbuilt a) hsize
    rw [haddress, hreply] at h
    exact absurd h (not_refused_ok members)
  · exact Alike.refl c

theorem alike_onLoaded {f : Loaded → Console × Json}
    (hf : ∀ l, c.session.current = some l → Refused (some (f l).2) → c.Alike (f l).1)
    (h : Refused (c.onLoaded f : Outcome Unit).reply) :
    c.Alike (c.onLoaded f : Outcome Unit).console := by
  rw [onLoaded] at h ⊢
  split
  · rename_i l hl
    rw [hl] at h
    exact hf l hl h
  · exact Alike.refl c

theorem alike_performLoad
    (h : Refused (c.performLoad (m.map Session.cancelAt) files args).reply) :
    c.Alike (c.performLoad (m.map Session.cancelAt) files args).console := by
  rw [performLoad] at h ⊢
  split
  · exact Alike.refl c
  rename_i path hpath
  rw [hpath] at h
  dsimp only at h
  split
  · exact Alike.refl c
  rename_i o ho
  rw [ho] at h
  refine ⟨Session.alike_loadFile m fun hnone => ?_, rfl, rfl, rfl⟩
  -- a load without an error is not refused
  simp only [hnone] at h
  split at h
  · rename_i e he
    exact absurd he (by simp)
  · exact not_refused_ok _ h
  · exact not_refused_ok _ h

theorem alike_perform (hbuilt : ∀ l, c.session.current = some l → l.Built)
    (hsize : ∀ l, c.session.current = some l → l.listing.size < 2 ^ 63) {command : Command}
    (h : Refused (c.perform (m.map Session.cancelAt) files command args).reply) :
    c.Alike (c.perform (m.map Session.cancelAt) files command args).console := by
  cases command with
  | load => exact alike_performLoad h
  | goto =>
    refine alike_onLoaded (fun l hl hrefused => ?_) h
    exact alike_performGoto (hbuilt l hl) (hsize l hl) hrefused
  | list | back => exact alike_onLoaded (fun l _ hrefused => absurd hrefused (not_refused_ok _)) h
  | info | lookup | symbol | resolve | hex | seeds =>
    exact alike_onLoaded (fun l _ _ => Alike.refl c) h
  | help => exact Alike.refl c
  | quit => exact absurd h (not_refused_ok [])

/-- **A turn that is refused leaves the console alike.** -/
theorem alike_turn (hbuilt : ∀ l, c.session.current = some l → l.Built)
    (hsize : ∀ l, c.session.current = some l → l.listing.size < 2 ^ 63) {t : Turn}
    (h : Refused (c.turn t).reply) : c.Alike (c.turn t).console := by
  rcases turn_cases t with ⟨command, args, -, hturn⟩ | ⟨reply, hturn⟩
  · rw [hturn] at h ⊢
    exact alike_perform hbuilt hsize h
  · rw [hturn]
    exact Alike.refl c

/-- A file with a return, and the instruction behind it. -/
def returnFile : Files := fun path =>
  if path = Text.ofString "f" then .contents [8, 0, 0xe0, 3, 0, 0, 0, 0] else .missing "gone"

/-- A console that shows the second row of that file next. -/
def scrolled : Console :=
  let c := (({} : Console).turn { line := "load f mips", files := returnFile }).console
  (c.turn { line := "list 1", files := returnFile }).console

/-- A load of that file which is cancelled when its result is there. -/
def superseded : Turn :=
  { line := "load f mips", files := returnFile, cancel := some .publication }

end Console

end Disassembler
