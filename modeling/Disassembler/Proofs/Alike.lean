import Disassembler.Proofs.Session

/-!
# Loads of alike sessions

Sessions in which the same was loaded may still differ in the tickets that they have given out, and
in what is in flight. No load can tell: it takes the place of what is in flight, and the only ticket
it looks for is its own. So alike sessions stay alike through the same loads, which fail or succeed
alike. A load that fails leaves its session as it was, up to such differences.
-/

namespace Disassembler

/-- What is loaded was built from an image. -/
def Loaded.Built (l : Loaded) : Prop :=
  ∃ c config image records name b, Loaded.build c config image records name = .ok b
    ∧ l = { b with generation := l.generation }

namespace Session

/-- What cancels a load at a moment. -/
def cancelAt (m : Moment) : Interruption Unit := { moment := m, act := fun s => (s.cancel, ()) }

variable {s s' : Session} {m : Option Moment} {k : Moment} {t t' : Nat}
variable {r : Except LoadError Loaded}

theorem Alike.symm (h : s.Alike s') : s'.Alike s :=
  ⟨h.config.symm, h.current.symm, h.generation.symm⟩

theorem Alike.trans {s'' : Session} (h : s.Alike s') (h' : s'.Alike s'') : s.Alike s'' :=
  ⟨h'.config.trans h.config, h'.current.trans h.current, h'.generation.trans h.generation⟩

/-! ## Cancellation -/

theorem interrupt_cancelAt (s : Session) (m : Option Moment) (k : Moment) :
    (s.interrupt (m.map cancelAt) k).1 = if m = some k then s.cancel else s := by
  cases m with
  | none => rfl
  | some m =>
    rw [Option.map_some, interrupt]
    by_cases hm : m = k
    · simp [cancelAt, hm]
    · simp [cancelAt, hm]

theorem alike_interrupt (s : Session) (m : Option Moment) (k : Moment) :
    s.Alike (s.interrupt (m.map cancelAt) k).1 := by
  rw [interrupt_cancelAt]
  split
  · exact ⟨rfl, rfl, rfl⟩
  · exact ⟨rfl, rfl, rfl⟩

theorem isLive_interrupt :
    (s.interrupt (m.map cancelAt) k).1.isLive t = (s.isLive t && decide (m ≠ some k)) := by
  rw [interrupt_cancelAt]
  split
  · rename_i hm
    rw [isLive_cancel, decide_eq_false (not_not_intro hm), Bool.and_false]
  · rename_i hm
    rw [decide_eq_true hm, Bool.and_true]

/-! ## The stages of a load -/

theorem alike_analysing (s : Session) (m : Option Moment) :
    s.Alike (s.analysing (m.map cancelAt)) :=
  (⟨rfl, rfl, rfl⟩ : s.Alike s.start.1).trans (alike_interrupt _ _ _)

theorem alike_ready (s : Session) (m : Option Moment) (r : Except LoadError Loaded) :
    s.Alike (s.ready (m.map cancelAt) r) := by
  cases r with
  | error e => exact alike_analysing s m
  | ok l => exact (alike_analysing s m).trans (alike_interrupt _ _ _)

/-- A load finds itself live when its analysis begins unless it was cancelled by then. -/
theorem isLive_analysing :
    (s.analysing (m.map cancelAt)).isLive s.tickets = decide (m ≠ some .analysis) := by
  have hstart : s.start.1.isLive s.tickets = true := isLive_start.mpr rfl
  rw [analysing, isLive_interrupt, hstart, Bool.true_and]

theorem isLive_ready (s s' : Session) (m : Option Moment) (r : Except LoadError Loaded) :
    (s'.ready (m.map cancelAt) r).isLive s'.tickets
      = (s.ready (m.map cancelAt) r).isLive s.tickets := by
  cases r with
  | error e => exact isLive_analysing.trans isLive_analysing.symm
  | ok l => simp only [ready, isLive_interrupt, isLive_analysing]

theorem Alike.result (h : s.Alike s') (m : Option Moment) (image : Image)
    (records : Debug.Records) (name : Text) :
    s'.result (m.map cancelAt) image records name
      = s.result (m.map cancelAt) image records name := by
  rw [Session.result, Session.result, isLive_analysing, isLive_analysing, h.config]

theorem Alike.finish (h : s.Alike s') (hlive : s'.isLive t' = s.isLive t) :
    (s.finish t r).1.Alike (s'.finish t' r).1 ∧ (s'.finish t' r).2 = (s.finish t r).2 := by
  cases r with
  | error e => exact ⟨⟨h.config, h.current, h.generation⟩, rfl⟩
  | ok l =>
    rw [Session.finish, Session.finish, hlive]
    split
    · refine ⟨⟨h.config, ?_, congrArg (· + 1) h.generation⟩, rfl⟩
      simp only [publish, h.generation]
    · exact ⟨h, rfl⟩

/-! ## Loads -/

/-- **Alike sessions stay alike through a load**, and it comes to the same in both. -/
theorem Alike.load (h : s.Alike s') (m : Option Moment) (image : Image) (records : Debug.Records)
    (name : Text) :
    let o := s.load (m.map cancelAt) (some image) records name
    let o' := s'.load (m.map cancelAt) (some image) records name
    o.session.Alike o'.session ∧ o'.error = o.error := by
  intro o o'
  obtain ⟨hsession, herror⟩ := load_eq (i := m.map cancelAt) s image records name
  obtain ⟨hsession', herror'⟩ := load_eq (i := m.map cancelAt) s' image records name
  rw [h.result] at hsession' herror'
  generalize s.result (m.map cancelAt) image records name = r at hsession herror hsession' herror'
  have hready : (s.ready (m.map cancelAt) r).Alike (s'.ready (m.map cancelAt) r) :=
    (alike_ready s m r).symm.trans (h.trans (alike_ready s' m r))
  obtain ⟨hfinish, herrors⟩ := hready.finish (r := r) (isLive_ready s s' m r)
  exact ⟨hsession ▸ hsession' ▸ hfinish, herror'.trans (herrors.trans herror.symm)⟩

/-- **A load that fails leaves what was loaded before it**, wherever it fails. -/
theorem alike_load (m : Option Moment) (image : Image) (records : Debug.Records) (name : Text)
    (h : (s.load (m.map cancelAt) (some image) records name).error ≠ none) :
    s.Alike (s.load (m.map cancelAt) (some image) records name).session := by
  obtain ⟨hsession, herror⟩ := load_eq (i := m.map cancelAt) s image records name
  rw [herror] at h
  rw [hsession]
  exact (alike_ready s m _).trans (alike_finish h)

/-- What is loaded after a load was loaded before it, or is its result. -/
theorem current_load (m : Option Moment) (image : Image) (records : Debug.Records) (name : Text)
    {l : Loaded}
    (hl : (s.load (m.map cancelAt) (some image) records name).session.current = some l) :
    s.current = some l
      ∨ ∃ b, s.result (m.map cancelAt) image records name = .ok b
        ∧ l = { b with generation := l.generation } := by
  obtain ⟨hsession, -⟩ := load_eq (i := m.map cancelAt) s image records name
  rw [hsession] at hl
  generalize s.result (m.map cancelAt) image records name = r at hl ⊢
  have hready := alike_ready s m r
  cases r with
  | error e => exact Or.inl (hready.current.symm.trans hl)
  | ok b =>
    rw [finish] at hl
    split at hl
    · obtain rfl := Option.some.inj hl
      exact Or.inr ⟨b, rfl, rfl⟩
    · exact Or.inl (hready.current.symm.trans hl)

/-! ## Files -/

section Files

variable {files : Files} {o : LoadOptions}

/-- A load of files fails before it begins, or it is a load of an image. -/
theorem loadFile_cases (i : Option (Interruption Unit)) (files : Files) (o : LoadOptions) :
    (∃ e, ∀ s : Session, (s.loadFile i files o).session = s
        ∧ (s.loadFile i files o).error = some e)
      ∨ ∃ image records, ∀ s : Session,
        (s.loadFile i files o).session = (s.load i (some image) records o.path).session
        ∧ (s.loadFile i files o).error = (s.load i (some image) records o.path).error := by
  rcases hdebug : readDebug o files with ⟨contents, reason | notes⟩
  · exact Or.inl ⟨.badDebug reason, fun s => by simp [loadFile, hdebug]⟩
  · rcases himage : o.loadImage files contents.symbols.toList with e | image
    · cases e with
      | noMachine => exact Or.inl ⟨.noMachine, fun s => by simp [loadFile, hdebug, himage]⟩
      | unreadable reason =>
        exact Or.inl ⟨.unreadable reason, fun s => by simp [loadFile, hdebug, himage]⟩
    · exact Or.inr ⟨image, contents.records, fun s => by simp [loadFile, hdebug, himage]⟩

theorem Alike.loadFile (h : s.Alike s') (m : Option Moment) (files : Files) (o : LoadOptions) :
    (s.loadFile (m.map cancelAt) files o).session.Alike
        (s'.loadFile (m.map cancelAt) files o).session
      ∧ (s'.loadFile (m.map cancelAt) files o).error
        = (s.loadFile (m.map cancelAt) files o).error := by
  rcases loadFile_cases (m.map cancelAt) files o with ⟨e, he⟩ | ⟨image, records, hload⟩
  · rw [(he s).1, (he s').1, (he s).2, (he s').2]
    exact ⟨h, rfl⟩
  · rw [(hload s).1, (hload s').1, (hload s).2, (hload s').2]
    exact h.load m image records o.path

theorem alike_loadFile (m : Option Moment)
    (h : (s.loadFile (m.map cancelAt) files o).error ≠ none) :
    s.Alike (s.loadFile (m.map cancelAt) files o).session := by
  rcases loadFile_cases (m.map cancelAt) files o with ⟨e, he⟩ | ⟨image, records, hload⟩
  · rw [(he s).1]
    exact ⟨rfl, rfl, rfl⟩
  · rw [(hload s).2] at h
    rw [(hload s).1]
    exact alike_load m image records o.path h

/-- **Whatever is loaded was built**, if what was loaded before it was. -/
theorem built_loadFile (h : ∀ l, s.current = some l → l.Built) (m : Option Moment) {l : Loaded}
    (hl : (s.loadFile (m.map cancelAt) files o).session.current = some l) : l.Built := by
  rcases loadFile_cases (m.map cancelAt) files o with ⟨e, he⟩ | ⟨image, records, hload⟩
  · rw [(he s).1] at hl
    exact h l hl
  · rw [(hload s).1] at hl
    rcases current_load m image records o.path hl with hl | ⟨b, hb, heq⟩
    · exact h l hl
    · exact ⟨_, _, _, _, _, b, hb, heq⟩

end Files

end Session

end Disassembler
