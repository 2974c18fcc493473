import Disassembler.Files
import Disassembler.HexView
import Disassembler.Listing

/-!
# Sessions

A session holds what was loaded last. A load takes time, and other things may happen to the session
meanwhile: another load may begin, or the load may be cancelled. So a load has two steps. It
*begins* by taking a ticket, which makes it the one in flight and cancels the one before it; and it
*finishes* by publishing its result, which it may do only while its ticket is in flight and not
cancelled. A load that fails for any reason leaves what was loaded before it.
-/

namespace Disassembler

/-- Why a load failed. -/
inductive LoadError where
  /-- The image file cannot be read. -/
  | unreadable (reason : Text)
  /-- There is no image at all. -/
  | noImage
  | noMachine
  | unsupported
  | noCode
  /-- The debug file cannot be read. -/
  | badDebug (reason : Text)
  /-- It was cancelled before its analysis was finished. -/
  | cancelled
  /-- It was cancelled when its result was ready. -/
  | superseded
  deriving DecidableEq

namespace LoadError

/-- The codes of all errors, in the order in which they are listed. -/
def codes : List String := ["io", "bad_image", "no_code", "bad_debug", "cancelled"]

/-- The code of an error. -/
def code : LoadError → String
  | unreadable _ => "io"
  | noImage | noMachine | unsupported => "bad_image"
  | noCode => "no_code"
  | badDebug _ => "bad_debug"
  | cancelled | superseded => "cancelled"

/-- The message of an error. -/
def message : LoadError → Text
  | unreadable reason => reason
  | noImage => "no image"
  | noMachine => RawError.noMachine.message
  | unsupported => "cannot analyse image: " ++ Text.ofString Obstacle.unsupported.name
  | noCode => "image has no executable section"
  | badDebug reason => reason
  | cancelled => "load cancelled"
  | superseded => "load superseded"

/-- The error of an image that cannot be analysed. -/
def ofObstacle : Obstacle → LoadError
  | .cancelled => cancelled
  | .unsupported => unsupported
  | .noCode => noCode

/-- The error of an image file that cannot be loaded. -/
def ofRawError : RawError → LoadError
  | .noMachine => noMachine
  | .unreadable reason => unreadable reason

end LoadError

/-- Everything that is derived from one load. -/
structure Loaded where
  name : Text
  /-- The number of results that were published, up to this one. -/
  generation : Nat := 0
  analysis : Analysis
  records : Debug.Index
  listing : Listing
  hex : HexView
  deriving Inhabited

namespace Loaded

/-- The image that was loaded. -/
def image (l : Loaded) : Image := l.analysis.image

/-- Everything that follows from an image and its debug records. -/
def build (c : Conditions) (config : Config) (image : Image) (records : Debug.Index)
    (name : Text) : Except LoadError Loaded :=
  match Analysis.run c config image with
  | .error o => .error (LoadError.ofObstacle o)
  | .ok an =>
    .ok { name, analysis := an, records
          listing := Listing.build an records, hex := HexView.build image }

end Loaded

/-! ## The steps of a load -/

/-- The load that is in flight. -/
structure InFlight where
  ticket : Nat
  cancelled : Bool := false
  deriving DecidableEq, Inhabited

/-- What is loaded, and what is under way. -/
structure Session where
  config : Config := {}
  current : Option Loaded := none
  /-- The number of results that were published. -/
  generation : Nat := 0
  /-- The number of loads that began. -/
  tickets : Nat := 0
  inFlight : Option InFlight := none
  deriving Inhabited

namespace Session

/-- A load begins, and takes a ticket. -/
def start (s : Session) : Session × Nat :=
  ({ s with tickets := s.tickets + 1, inFlight := some { ticket := s.tickets } }, s.tickets)

/-- Cancels the load in flight. -/
def cancel (s : Session) : Session :=
  { s with inFlight := s.inFlight.map fun f => { f with cancelled := true } }

/-- Is the load with a ticket in flight and not cancelled? -/
def isLive (s : Session) (ticket : Nat) : Bool := s.inFlight == some { ticket }

/-- Publishes a result. -/
def publish (s : Session) (l : Loaded) : Session :=
  { s with
    inFlight := none
    generation := s.generation + 1
    current := some { l with generation := s.generation + 1 } }

/-- The load with a ticket finishes. -/
def finish (s : Session) (ticket : Nat) : Except LoadError Loaded → Session × Option LoadError
  | .error e => ({ s with inFlight := s.inFlight.filter (·.ticket ≠ ticket) }, some e)
  | .ok l => if s.isLive ticket then (s.publish l, none) else (s, some .superseded)

/-! ## Loading -/

/-- A moment in the course of a load at which something else may happen. -/
inductive Moment where
  /-- The load has begun, and its analysis has not. -/
  | analysis
  /-- The result is ready, and not published. -/
  | publication
  deriving DecidableEq, Inhabited

/-- Something that happens to a session in the course of a load. -/
structure Interruption (ρ : Type) where
  moment : Moment
  act : Session → Session × ρ

/-- What a load has come to. -/
structure Outcome (ρ : Type) where
  session : Session
  /-- Why it failed, if it did. -/
  error : Option LoadError
  /-- What an interruption has come to, if its moment came. -/
  interrupted : Option ρ := none
  /-- What was worth noting. -/
  log : List Text := []

variable {ρ : Type}

/-- The session after an interruption, if this is its moment. -/
def interrupt (s : Session) (i : Option (Interruption ρ)) (m : Moment) : Session × Option ρ :=
  match i with
  | some i =>
    if i.moment = m then
      let (s, r) := i.act s
      (s, some r)
    else (s, none)
  | none => (s, none)

/-- What is worth noting of debug records. -/
def notesOfRecords (v : Debug.Index) : List Text :=
  v.conflicts.map (fun c =>
      let source := if c.incoming.file.isEmpty then c.incoming.function else c.incoming.file
      "Debug record " ++ Text.hex c.incoming.start.toNat ++ "-" ++ Text.hex c.incoming.stop.toNat
        ++ " (" ++ source.untilNul ++ ":" ++ Text.decimal c.incoming.line.toNat ++ ") overlaps "
        ++ Text.hex c.kept.start.toNat ++ "-" ++ Text.hex c.kept.stop.toNat ++ ", "
        ++ (if c.rejected then Text.ofString "rejected" else Text.ofString "clipped"))
    ++ ["Vault: " ++ Text.decimal v.records.size ++ " records, "
      ++ Text.decimal v.functions.size ++ " functions, "
      ++ Text.decimal v.conflicts.length ++ " conflicts"]

/-- What is worth noting of an analysis. -/
def notesOfAnalysis (an : Analysis) : List Text :=
  (if an.image.namedSeeds.isEmpty then
      ["No entry point or function symbols, seeding "
        ++ Text.decimal an.image.initialSeeds.length ++ " section starts"]
    else [])
    ++ ["Processed " ++ Text.decimal an.stats.instructions ++ " instructions ("
      ++ Text.decimal an.stats.invalid ++ " invalid) from " ++ Text.decimal an.seeds.size
      ++ " seeds in " ++ Text.decimal an.stats.rounds ++ " rounds"]

/-- What is worth noting of a result. -/
def notesOfResult (name : Text) (r : Except LoadError Loaded) : Option LoadError → List Text
  | none =>
    ["Loaded " ++ name.untilNul ++ ": "
      ++ Text.decimal ((r.toOption.map fun l => l.listing.size).getD 0) ++ " listing rows"]
  | some .superseded => ["Load of " ++ name.untilNul ++ " superseded"]
  | some e => ["Load failed: " ++ e.message]

/-- Loads an image with its debug records. A load without an image fails before it begins. -/
def load (s : Session) (i : Option (Interruption ρ)) (image : Option Image)
    (records : Debug.Records) (name : Text) : Outcome ρ :=
  match image with
  | none => { session := s, error := some .noImage }
  | some image =>
    let config := s.config
    let (s, ticket) := s.start
    let index := Debug.Index.build records (some image)
    let (s, first) := s.interrupt i .analysis
    let cancelled := !s.isLive ticket
    let result := Loaded.build { cancelled := fun _ => cancelled } config image index name
    let (s, second) :=
      match result with
      | .ok _ => s.interrupt i .publication
      | .error _ => (s, none)
    let (s, error) := s.finish ticket result
    { session := s, error, interrupted := first.or second
      log := notesOfRecords index
        ++ (result.toOption.map fun l => notesOfAnalysis l.analysis).getD []
        ++ notesOfResult name result error }

/-- The debug file that goes with an image: the one that is named, else the one beside the image
if it can be opened. -/
def debugPath? (o : LoadOptions) (files : Files) : Option Text :=
  if o.debugPath.isEmpty then
    let path := LoadOptions.debugPathBeside o.path
    if files.contains path then some path else none
  else some o.debugPath

/-- The paths that a load may read. -/
def paths (o : LoadOptions) : List Text :=
  [o.path, if o.debugPath.isEmpty then LoadOptions.debugPathBeside o.path else o.debugPath]

/-- The debug file of an image, read; without one it says nothing. -/
def readDebug (o : LoadOptions) (files : Files) : Debug.Contents × Except Text (List Text) :=
  match debugPath? o files with
  | none => ({}, .ok [])
  | some path =>
    let (contents, result) := Debug.load files path
    (contents, result.map fun count => ["Parsed " ++ Text.decimal count ++ " debug objects"])

/-- Loads an image file and its debug file. -/
def loadFile (s : Session) (i : Option (Interruption ρ)) (files : Files) (o : LoadOptions) :
    Outcome ρ :=
  match readDebug o files with
  | (_, .error reason) =>
    { session := s, error := some (.badDebug reason), log := [reason.untilNul] }
  | (contents, .ok notes) =>
    match o.loadImage files contents.symbols.toList with
    | .error .noMachine => { session := s, error := some .noMachine, log := notes }
    | .error (.unreadable reason) =>
      { session := s, error := some (.unreadable reason), log := notes ++ [reason] }
    | .ok image =>
      let outcome := s.load i (some image) contents.records o.path
      let bytes := (image.sections.toList.map (·.bytes.size)).foldr (· + ·) 0
      { outcome with
        log := notes
          ++ ["Loaded " ++ Text.decimal bytes ++ " bytes from " ++ o.path.untilNul ++ " at "
            ++ Text.hexPrefixed o.base.toNat]
          ++ outcome.log }

/-- The listing row of the entry at an address. -/
def resolveReference (s : Session) (a : UInt64) : Option Nat := do
  (← s.current).listing.rowOfEntry a

end Session

end Disassembler
