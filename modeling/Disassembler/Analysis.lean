import Disassembler.Merge
import Disassembler.Pool

/-!
# Analysis

The analysis of an image finds its code in rounds. A round sweeps all seeds that are pending, each
on its own, merges the runs in order of priority, and collects the seeds of the next round from
where the confirmed instructions lead. It ends when no new seed is found. The result is the stream
of all confirmed entries in order of their addresses.

An analysis may be cancelled while it runs. It looks for that at the beginning and the end of each
round and before each entry of a sweep, and gives nothing at all if it was.
-/

namespace Disassembler

/-- What was done in an analysis. -/
structure Stats where
  rounds : Nat := 0
  sweeps : Nat := 0
  /-- The valid entries of the stream. -/
  instructions : Nat := 0
  /-- The invalid entries of the stream. -/
  invalid : Nat := 0
  /-- The sweeps that fell into data. -/
  dataRuns : Nat := 0
  /-- The runs that collided with confirmed code. -/
  truncatedRuns : Nat := 0
  /-- The entries that were swept and not kept. -/
  discarded : Nat := 0
  deriving DecidableEq, Inhabited

/-- Why an image cannot be analysed. -/
inductive Obstacle where
  | cancelled
  /-- The machine is not known. -/
  | unsupported
  | noCode
  deriving DecidableEq, Inhabited

namespace Obstacle

/-- All obstacles, in the order in which they are listed. -/
def all : List Obstacle := [cancelled, unsupported, noCode]

/-- The printed name of an obstacle. -/
def name : Obstacle → String
  | cancelled => "cancelled"
  | unsupported => "unsupported architecture"
  | noCode => "no executable code"

end Obstacle

/-- A moment at which an analysis looks whether it is cancelled. -/
inductive Poll where
  | roundStart (round : Nat)
  /-- Before an entry of the sweep of a seed. -/
  | sweep (round seed entry : Nat)
  | roundEnd (round : Nat)
  deriving DecidableEq

/-- What an analysis does not choose itself: when it is cancelled, and how its workers are
scheduled in each round. -/
structure Conditions where
  cancelled : Poll → Bool := fun _ => false
  schedule : Nat → Nat → Nat := fun _ _ => 0

instance : Inhabited Conditions := ⟨{}⟩

/-- The result of an analysis. -/
structure Analysis where
  image : Image
  machine : Machine
  /-- The confirmed entries, by address. -/
  stream : Array Instruction
  /-- The seeds that were swept, in order. -/
  seeds : Array Seed
  stats : Stats
  deriving DecidableEq, Inhabited

/-! ## Rounds -/

/-- An analysis that is under way. -/
structure Progress where
  coverage : Coverage := {}
  /-- The seeds that were swept, in order. -/
  seeds : Array Seed := #[]
  /-- Where the entries confirmed in this round lead. -/
  proposed : List Seed := []
  stats : Stats := {}
  deriving DecidableEq, Inhabited

namespace Progress

/-- Merges a run. -/
def merge (config : Config) (image : Image) (m : Machine) (p : Progress) (r : Run) : Progress :=
  let merged := p.coverage.merge config.overlap r.entries.toList
  { p with
    coverage := merged.coverage
    proposed := p.proposed ++ merged.kept.flatMap (·.seeds config image m)
    stats := { p.stats with
      dataRuns := p.stats.dataRuns + r.isData.toNat
      truncatedRuns := p.stats.truncatedRuns + merged.collided.toNat
      discarded := p.stats.discarded + (r.entries.size - merged.kept.length) } }

/-- The seeds of the next round: those proposed that lie in code and were neither swept nor
covered. -/
def nextSeeds (image : Image) (p : Progress) : List Seed :=
  Seed.arrange (p.proposed.filter fun s =>
    image.inCode s.address && !p.seeds.any (·.address == s.address)
      && !p.coverage.covers s.address)

/-- The runs of the seeds of a round, in the order of the seeds. -/
def sweepAll (c : Conditions) (config : Config) (image : Image) (m : Machine) (p : Progress)
    (pending : List Seed) : List Run :=
  let round := p.stats.rounds
  Pool.run config.workers (c.schedule round)
    (fun (k, seed) => Sweep.run { config, image, machine := m, coverage := p.coverage, seed }
      fun entry => c.cancelled (.sweep round k entry))
    (pending.mapIdx fun k seed => (k, seed))

/-- A round: the seeds that are pending are swept and their runs merged. -/
def round (c : Conditions) (config : Config) (image : Image) (m : Machine) (p : Progress)
    (pending : List Seed) : Progress :=
  let runs := p.sweepAll c config image m pending
  let begun : Progress := { p with
    seeds := p.seeds ++ pending.toArray
    proposed := []
    stats := { p.stats with
      rounds := p.stats.rounds + 1, sweeps := p.stats.sweeps + runs.length } }
  runs.foldl (merge config image m) begun

/-- At most so many rounds, until nothing is pending; nothing if the analysis is cancelled. -/
def rounds (c : Conditions) (config : Config) (image : Image) (m : Machine) :
    Nat → Progress → List Seed → Option Progress
  | _, p, [] => some p
  | 0, p, _ :: _ => some p
  | n + 1, p, s :: rest =>
    if c.cancelled (.roundStart p.stats.rounds) ∨ c.cancelled (.roundEnd p.stats.rounds) then none
    else
      let p := p.round c config image m (s :: rest)
      rounds c config image m n p (p.nextSeeds image)

/-- The finished analysis. -/
def finish (image : Image) (m : Machine) (p : Progress) : Analysis :=
  let stream := p.coverage.entries
  let invalid := stream.countP (·.isInvalid)
  { image, machine := m, stream, seeds := p.seeds
    stats := { p.stats with instructions := stream.size - invalid, invalid } }

end Progress

/-- The addresses in executable sections. Each round after the first sweeps one of them that was
not swept before, so there are no more rounds than that and one. -/
def Image.codeSize (image : Image) : Nat :=
  ((image.sections.toList.filter (·.executable)).map (·.size.toNat)).foldr (· + ·) 0

namespace Analysis

/-- Analyses an image. -/
def run (c : Conditions) (config : Config) (image : Image) : Except Obstacle Analysis :=
  match image.machine with
  | none => .error .unsupported
  | some m =>
    if image.sections.any (·.executable) then
      match Progress.rounds c config image m (image.codeSize + 1) {} image.initialSeeds with
      | some p => .ok (p.finish image m)
      | none => .error .cancelled
    else .error .noCode

/-- Analyses an image if there is one. -/
def runOption (c : Conditions) (config : Config) : Option Image → Except Obstacle Analysis
  | some image => run c config image
  | none => .error .noCode

/-! ## Questions -/

/-- The place of the entry that starts at an address. -/
def find (an : Analysis) (a : UInt64) : Option Nat :=
  let i := Search.endOf (fun i : Instruction => i.address < a) an.stream
  if an.stream[i]?.any (·.address == a) then some i else none

/-- The place of the entry that contains an address. -/
def containing (an : Analysis) (a : UInt64) : Option Nat :=
  match Search.endOf (fun i : Instruction => i.address ≤ a) an.stream with
  | 0 => none
  | i + 1 => if an.stream[i]?.any (a < ·.stop) then some i else none

/-- The place of the first entry that ends behind an address, or the end of the stream. -/
def lowerBound (an : Analysis) (a : UInt64) : Nat :=
  Search.endOf (fun i : Instruction => i.stop ≤ a) an.stream

/-- Does a valid instruction start at an address? -/
def isInstruction (an : Analysis) (a : UInt64) : Bool :=
  ((an.find a).bind fun i => an.stream[i]?).any (!·.isInvalid)

end Analysis

end Disassembler
