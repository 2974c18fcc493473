import Disassembler.Row

/-!
# The hex view

The bytes of all sections, in rows of sixteen that start at multiples of sixteen. Sections whose
rows touch share a *span* of rows. A byte outside of every section is left blank, and one that is
not backed shows as zero.
-/

namespace Disassembler

/-- The bytes in a row of the hex view. -/
def hexRowBytes : Nat := 16

/-- Rows without a gap, the place of the first among all rows, and the addresses that they show. -/
structure HexSpan where
  firstRow : Nat
  start : UInt64
  stop : UInt64
  deriving DecidableEq, Inhabited

namespace HexSpan

/-- An address without what exceeds a multiple of sixteen. -/
def alignDown (a : UInt64) : UInt64 := a - a % UInt64.ofNat hexRowBytes

/-- The number of rows of a span. -/
def rows (s : HexSpan) : Nat := (s.stop - s.start).toNat / hexRowBytes

/-- The range of addresses that the rows of a section show. -/
def range (s : Section) : UInt64 × UInt64 :=
  (alignDown s.start, alignDown (s.stop + UInt64.ofNat (hexRowBytes - 1)))

/-- The ranges of sections in order, where a section whose rows reach into those before it
lengthens the range. -/
def join (ranges : Array (UInt64 × UInt64)) (s : Section) : Array (UInt64 × UInt64) :=
  let (start, stop) := range s
  if start = stop then ranges
  else
    match ranges.back? with
    | some (first, last) =>
      if start < last then ranges.pop.push (first, max last stop) else ranges.push (start, stop)
    | none => ranges.push (start, stop)

/-- The spans of ranges in order, behind a number of rows. -/
def ofRanges (row : Nat) : List (UInt64 × UInt64) → List HexSpan
  | [] => []
  | (start, stop) :: rest =>
    let span : HexSpan := { firstRow := row, start, stop }
    span :: ofRanges (row + span.rows) rest

end HexSpan

/-- The hex view of an image. -/
structure HexView where
  image : Image
  spans : Array HexSpan
  size : Nat
  deriving DecidableEq, Inhabited

namespace HexView

/-- The hex view of an image. -/
def build (image : Image) : HexView :=
  let spans := HexSpan.ofRanges 0 (image.sections.foldl HexSpan.join #[]).toList
  { image, spans := spans.toArray, size := (spans.map HexSpan.rows).foldr (· + ·) 0 }

/-- The row to which an address belongs: the row that shows it, else the first row behind it, else
the last row. -/
def rowFor (v : HexView) (a : UInt64) : Nat :=
  let n := Search.endOf (fun s : HexSpan => s.start ≤ a) v.spans
  match (Search.last? (fun s : HexSpan => s.start ≤ a) v.spans).filter (a < ·.stop), v.spans[n]? with
  | some s, _ => s.firstRow + (a - s.start).toNat / hexRowBytes
  | none, some s => s.firstRow
  | none, none => v.size - 1

/-- The byte of a section at an address, nothing outside of every section. -/
def byteAt (v : HexView) (a : UInt64) : Option UInt8 := (v.image.sectionFor a).map (·.byteAt a)

/-- A byte as two digits, or two spaces. -/
def hexCell : Option UInt8 → Text
  | some b => Text.hexByte b
  | none => "  "

/-- A byte as the character that it encodes, if it is printable. -/
def asciiCell : Option UInt8 → UInt8
  | some b => if 32 ≤ b ∧ b < 127 then b else Text.code '.'
  | none => 32

/-- The row that starts at an address. -/
def rowAt (v : HexView) (a : UInt64) (index : Nat) : Row :=
  let cells := (List.range hexRowBytes).map fun k => v.byteAt (a + UInt64.ofNat k)
  { kind := .bytes, address := a, index
    tokens := addressColumn (rowDigits v.image.machine) a
      ++ [{ kind := .bytes, text := [(32 : UInt8)].intercalate (cells.map hexCell) },
        Token.punctuation "  ", { kind := .comment, text := cells.map asciiCell }] }

/-- The row at a place. -/
def row (v : HexView) (index : Nat) : Row :=
  if index < v.size then
    match Search.last? (fun s : HexSpan => s.firstRow ≤ index) v.spans with
    | some s => v.rowAt (s.start + UInt64.ofNat ((index - s.firstRow) * hexRowBytes)) index
    | none => {}
  else {}

/-- The hex view as a source of rows. -/
def source (v : HexView) : RowSource := { size := v.size, row := v.row, rowFor := v.rowFor }

end HexView

end Disassembler
