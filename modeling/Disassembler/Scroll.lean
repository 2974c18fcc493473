import Disassembler.Row

/-!
# Scrolling

A scroll buffer is a window on a source of rows. Its cursor is a signed 64-bit number that may lie
outside of the rows, so scrolling forth and back by the same count always ends where it began. Rows
that were built are cached, and each move of the cursor forgets those that are farther from it than
the keep distance.
-/

namespace Disassembler

/-- The signed 64-bit number that a sum wraps to. -/
def wrap64 (n : Int) : Int := n.bmod (1 <<< 64)

/-- A window on a source of rows. -/
structure ScrollBuffer where
  /-- How far from the cursor rows are kept. -/
  keep : Int
  cursor : Int := 0
  /-- The rows that are kept, by place. -/
  cache : List (Nat × Row) := []
  deriving DecidableEq, Inhabited

namespace ScrollBuffer

/-- How far from the cursor rows are kept if nothing else is asked for. -/
def defaultKeep : Int := 512

/-- Forgets the rows that are too far from the cursor. -/
def trim (b : ScrollBuffer) : ScrollBuffer :=
  let low := wrap64 (b.cursor - b.keep)
  let high := wrap64 (b.cursor + b.keep)
  { b with cache := b.cache.filter fun r => low ≤ (r.1 : Int) ∧ (r.1 : Int) ≤ high }

/-- Moves the cursor to the row of an address. -/
def setAnchor (source : RowSource) (a : UInt64) (b : ScrollBuffer) : ScrollBuffer :=
  trim { b with cursor := if source.size = 0 then 0 else source.rowFor a }

/-- Moves the cursor to a place. -/
def setRow (index : Int) (b : ScrollBuffer) : ScrollBuffer := trim { b with cursor := wrap64 index }

/-- The row at a place, from the cache if it is there. -/
def get (source : RowSource) (index : Nat) (b : ScrollBuffer) : Row × ScrollBuffer :=
  match b.cache.lookup index with
  | some r => (r, b)
  | none =>
    let r := source.row index
    (r, { b with cache := (index, r) :: b.cache })

/-- The rows at some places, in order. -/
def getAll (source : RowSource) : List Nat → ScrollBuffer → List Row × ScrollBuffer
  | [], b => ([], b)
  | i :: rest, b =>
    let (r, b) := b.get source i
    let (rs, b) := getAll source rest b
    (r :: rs, b)

/-- The places of a source from one number up to another. -/
def places (source : RowSource) (first stop : Int) : List Nat :=
  let low := max first 0
  let high := min stop source.size
  List.range' low.toNat (high - low).toNat

/-- The direction of a move. -/
inductive Direction where
  | forward
  | backward
  deriving DecidableEq, Inhabited

/-- Moves the cursor by a count, and gives the rows that it passes. -/
def extend (source : RowSource) (d : Direction) (count : Int) (b : ScrollBuffer) :
    List Row × ScrollBuffer :=
  let first :=
    match d with
    | .forward => b.cursor
    | .backward => wrap64 (b.cursor - count)
  let stop := wrap64 (first + count)
  let cursor :=
    match d with
    | .forward => stop
    | .backward => first
  let (rows, b) := getAll source (places source first stop) { b with cursor }
  (rows, b.trim)

/-- The rows from the cursor on, without moving it. -/
def peek (source : RowSource) (count : Int) (b : ScrollBuffer) : List Row × ScrollBuffer :=
  getAll source (places source b.cursor (wrap64 (b.cursor + count))) b

/-- The number of rows in the cache. -/
def cached (b : ScrollBuffer) : Nat := b.cache.length

/-- Is the row at a place in the cache? -/
def isCached (index : Nat) (b : ScrollBuffer) : Bool := (b.cache.lookup index).isSome

end ScrollBuffer

end Disassembler
