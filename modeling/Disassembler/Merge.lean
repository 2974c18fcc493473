import Disassembler.Sweep

/-!
# Merging runs

Runs are merged one after another into the coverage. A run keeps its entries up to the first one
that collides with confirmed code; what follows is dropped, and only the kept entries have a say in
where to sweep next. The bytes between the kept entries and the code that stopped them may become
an invalid entry.
-/

namespace Disassembler

/-- What merging has come to. -/
structure Merged where
  coverage : Coverage
  /-- The entries that were confirmed as they were swept. -/
  kept : List Instruction := []
  /-- Did an entry collide with confirmed code? -/
  collided : Bool := false
  deriving DecidableEq, Inhabited

/-- The invalid entry that fills the bytes of an entry up to an address. -/
def Instruction.marker (i : Instruction) (stop : UInt64) : Instruction :=
  .invalid i.bytes i.address (stop - i.address).toNat

namespace Coverage

/-- Merges entries in order until one collides. -/
def merge (overlap : Overlap) (c : Coverage) : List Instruction → Merged
  | [] => { coverage := c }
  | i :: rest =>
    if c.covers i.address then { coverage := c, collided := true }
    else
      match (c.nextStart i.address).filter (· < i.stop) with
      | some next =>
        { coverage :=
            match overlap with
            | .keepConfirmed => c.insert (i.marker next)
            | .discardRun => c
          collided := true }
      | none =>
        let m := (c.insert i).merge overlap rest
        { m with kept := i :: m.kept }

end Coverage

/-! ## Seeds -/

namespace Seed

/-- The order of sweeping: by origin, and within one origin by address. -/
def precedes (s t : Seed) : Bool :=
  if s.origin = t.origin then s.address ≤ t.address else s.origin.rank ≤ t.origin.rank

/-- By address, and at one address by origin. -/
def precedesByAddress (s t : Seed) : Bool :=
  if s.address = t.address then s.origin.rank ≤ t.origin.rank else s.address ≤ t.address

/-- The first seed of each run of seeds with one address. -/
def firstOfEach : List Seed → List Seed
  | [] => []
  | [s] => [s]
  | s :: t :: rest =>
    if s.address = t.address then firstOfEach (s :: rest) else s :: firstOfEach (t :: rest)
termination_by seeds => seeds.length

/-- The seeds of a list in order of sweeping, each address with its strongest origin. -/
def arrange (seeds : List Seed) : List Seed :=
  (firstOfEach (seeds.mergeSort precedesByAddress)).mergeSort precedes

end Seed

namespace Image

/-- The seeds that an image names: its entry point and the functions among its symbols. -/
def namedSeeds (image : Image) : List Seed :=
  (if image.inCode image.entry then [{ address := image.entry, origin := .entry }] else [])
    ++ image.symbols.toList.filterMap fun s =>
      if (s.kind = .function ∨ s.kind = .entry) ∧ s.address ≠ image.entry
          ∧ image.inCode s.address then
        some { address := s.address, origin := .symbol }
      else none

/-- The first seeds of an image: those that it names, else the starts of its executable
sections. -/
def initialSeeds (image : Image) : List Seed :=
  if image.namedSeeds.isEmpty then
    (image.sections.toList.filter (·.executable)).map fun s =>
      { address := s.start, origin := .symbol }
  else image.namedSeeds

end Image

end Disassembler
