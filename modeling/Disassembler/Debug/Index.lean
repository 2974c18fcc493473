import Disassembler.Debug.Record
import Disassembler.Image

/-!
# The index of debug records

Records may claim the same addresses. The index settles who keeps them: a record keeps what no
record registered before it claims, in as many pieces as that takes, and a function keeps the
first such piece alone. Every record that meets an earlier one is noted as a conflict. The pieces
are disjoint and sorted, so a question about an address is one search.
-/

namespace Disassembler.Debug

/-! ## Ranges that are taken -/

/-- A half-open range of addresses. -/
structure Span where
  start : UInt64
  stop : UInt64
  deriving DecidableEq, Inhabited

namespace Span

/-- Do two ranges share an address? -/
def meets (s t : Span) : Bool := s.start < t.stop && t.start < s.stop

/-- The range as a list without empty ranges. -/
def nonempty (s : Span) : List Span := if s.start < s.stop then [s] else []

/-- The parts of a range that are in none of the given ones, which ascend and are disjoint. -/
def uncovered (s : Span) : List Span → List Span
  | [] => s.nonempty
  | k :: ks =>
    if k.stop ≤ s.start then s.uncovered ks
    else if s.stop ≤ k.start then s.nonempty
    else
      nonempty { start := s.start, stop := k.start } ++ uncovered { s with start := k.stop } ks

/-- The given ranges and one more, in order of their starts. -/
def insert (s : Span) (ks : List Span) : List Span :=
  ks.takeWhile (·.start < s.start) ++ s :: ks.dropWhile (·.start < s.start)

end Span

/-! ## Conflicts -/

/-- A record that met one registered before it. -/
structure Conflict where
  /-- The record as it was registered. -/
  incoming : Record
  /-- The first kept range that it met. -/
  kept : Span
  /-- Was nothing left of it? -/
  rejected : Bool
  deriving DecidableEq, Inhabited

/-- The conflict of a record with the ranges kept before it. -/
def conflict? (r : Record) (taken : List Span) : Option Conflict :=
  let s : Span := { start := r.start, stop := r.stop }
  (taken.find? s.meets).map fun k =>
    { incoming := r, kept := k, rejected := (s.uncovered taken).isEmpty }

/-- The ranges that are taken after a record has been registered. -/
def taken (pieces : List Span) (before : List Span) : List Span :=
  pieces.foldl (fun ks s => s.insert ks) before

/-- The pieces that records keep, and their conflicts, when some ranges are taken already. -/
def keepRecords (before : List Span) : List Record → List Record × List Conflict
  | [] => ([], [])
  | r :: rest =>
    if r.stop ≤ r.start then keepRecords before rest
    else
      let pieces := Span.uncovered { start := r.start, stop := r.stop } before
      let (kept, conflicts) := keepRecords (taken pieces before) rest
      (pieces.map (fun s => { r with start := s.start, stop := s.stop }) ++ kept,
        (conflict? r before).toList ++ conflicts)

/-- A function as a record of its own. -/
def FunctionRange.record (f : FunctionRange) : Record :=
  { start := f.start, stop := f.stop, symbol := f.name, function := f.name }

/-- The pieces that functions keep, and their conflicts, when some ranges are taken already. -/
def keepFunctions (before : List Span) : List FunctionRange → List FunctionRange × List Conflict
  | [] => ([], [])
  | f :: rest =>
    if f.stop ≤ f.start then keepFunctions before rest
    else
      let piece := (Span.uncovered { start := f.start, stop := f.stop } before).head?
      let (kept, conflicts) := keepFunctions (taken piece.toList before) rest
      ((piece.map fun s => { f with start := s.start, stop := s.stop }).toList ++ kept,
        (conflict? f.record before).toList ++ conflicts)

/-! ## The index -/

/-- Where an address comes from. -/
structure Location where
  symbol : Text
  file : Text
  /-- The line, zero when it is not known. -/
  line : UInt32
  function : Text
  deriving DecidableEq, Inhabited

/-- A symbol at or before an address. -/
structure Nearest where
  name : Text
  offset : UInt64
  deriving DecidableEq, Inhabited

/-- Debug records that are settled and sorted, beside the image they describe. -/
structure Index where
  image : Option Image := none
  records : Array Record := #[]
  functions : Array FunctionRange := #[]
  conflicts : List Conflict := []
  types : Array TypeRecord := #[]
  deriving Inhabited

namespace Index

/-- The index of everything that has been registered. -/
def build (rs : Records) (image : Option Image) : Index :=
  let (records, recordConflicts) := keepRecords [] rs.records.toList
  let (functions, functionConflicts) := keepFunctions [] rs.functions.toList
  { image
    records := (records.mergeSort fun r s => r.start ≤ s.start).toArray
    functions := (functions.mergeSort fun f g => f.start ≤ g.start).toArray
    conflicts := recordConflicts ++ functionConflicts
    types := rs.types }

/-- The record that covers an address. -/
def recordAt (v : Index) (a : UInt64) : Option Record :=
  (Search.last? (fun r : Record => r.start ≤ a) v.records).filter (a < ·.stop)

/-- The function that covers an address. -/
def functionAt (v : Index) (a : UInt64) : Option FunctionRange :=
  (Search.last? (fun f : FunctionRange => f.start ≤ a) v.functions).filter (a < ·.stop)

/-- The first of two texts, or the second when the first is empty. -/
def orElse (s t : Text) : Text := if s.isEmpty then t else s

/-- Where an address comes from: by its record, which the function completes, or by the function
alone. -/
def lookup (v : Index) (a : UInt64) : Option Location :=
  match v.recordAt a, v.functionAt a with
  | some r, f =>
    let function := orElse r.function ((f.map (·.name)).getD [])
    some { symbol := orElse r.symbol function, file := r.file, line := r.line, function }
  | none, some f => some { symbol := f.name, file := [], line := 0, function := f.name }
  | none, none => none

/-- The function that covers an address, else the image's symbol before it. -/
def nearest (v : Index) (a : UInt64) : Option Nearest :=
  match v.functionAt a with
  | some f => some { name := f.name, offset := a - f.start }
  | none => do
    let s ← (← v.image).symbolBefore a
    return { name := s.display, offset := a - s.address }

/-- The label of an address, up to its first NUL: the function that starts there, else the
image's symbol unless it is intrinsic. -/
def symbolAt (v : Index) (a : UInt64) : Option Text :=
  match (v.functionAt a).filter (·.start == a) with
  | some f => some f.name.untilNul
  | none => do
    let s ← (← v.image).symbolAt a
    if s.isIntrinsic then none else some s.display.untilNul

end Index

end Disassembler.Debug
