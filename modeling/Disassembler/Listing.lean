import Disassembler.Analysis
import Disassembler.Row

/-!
# Listings

The listing of an analysed image shows each executable section between two marks. In between are
the entries of the stream, with a row for the label of an entry that has one, and the *gaps*: bytes
that no sweep has decoded, in rows that end at multiples of eight. Gaps may be huge, so rows are not
stored. The listing keeps its items, which make one row or more each, and for every sixty-fourth
item the number of rows before it; a row is found from the last such checkpoint at or before it.
-/

namespace Disassembler

/-- The bytes in a row of a gap. -/
def gapRowBytes : Nat := 8

/-- Something that makes rows of its own. -/
inductive Item where
  /-- The mark at the start of a section. -/
  | opening (s : Section)
  /-- The mark at the end of a section. -/
  | closing (s : Section)
  /-- An entry of the stream, with the label of its address. -/
  | entry (i : Instruction) (label : Option Text)
  /-- Bytes of a section that are not decoded. -/
  | gap (s : Section) (start stop : UInt64)
  deriving DecidableEq

namespace Item

/-- Where an item starts. -/
def address : Item → UInt64
  | opening s => s.start
  | closing s => s.stop
  | entry i _ => i.address
  | gap _ start _ => start

/-- Where an item stops. The marks of a section cover nothing. -/
def stop : Item → UInt64
  | opening s => s.start
  | closing s => s.stop
  | entry i _ => i.stop
  | gap _ _ stop => stop

/-- Is the item an entry or a gap? -/
def isContent : Item → Bool
  | entry .. | gap .. => true
  | opening _ | closing _ => false

/-- The line of eight bytes in which an address lies. -/
def lineOf (a : UInt64) : Nat := a.toNat / gapRowBytes

/-- The number of rows that an item makes. -/
def rows : Item → Nat
  | opening _ | closing _ => 1
  | entry _ label => if label.isSome then 2 else 1
  | gap _ start stop => lineOf (stop - 1) - lineOf start + 1

end Item

/-! ## Items -/

/-- The gap between two addresses of a section, if there is one. -/
def Item.gapBetween (s : Section) (start stop : UInt64) : List Item :=
  if start < stop then [.gap s start stop] else []

/-- The entries of a stream that start before the end of a section, with the gaps around them
from an address on, and the rest of the stream. -/
def Item.contents (labelOf : UInt64 → Option Text) (s : Section) (a : UInt64) :
    List Instruction → List Item × List Instruction
  | [] => (gapBetween s a s.stop, [])
  | i :: rest =>
    if i.address < s.stop then
      let (items, left) := contents labelOf s (max a i.stop) rest
      (gapBetween s a i.address ++ .entry i (labelOf i.address) :: items, left)
    else (gapBetween s a s.stop, i :: rest)

/-- The items of sections, in the order of the sections. Each takes its entries from the stream
that the one before it has left. -/
def Item.ofSections (labelOf : UInt64 → Option Text) :
    List Section → List Instruction → List Item
  | [], _ => []
  | s :: rest, stream =>
    let (items, left) := contents labelOf s s.start (stream.dropWhile (·.address < s.start))
    (.opening s :: items) ++ .closing s :: ofSections labelOf rest left

/-! ## Listings -/

/-- An item of a listing and the number of rows before it. -/
structure Checkpoint where
  item : Nat
  row : Nat
  deriving DecidableEq, Inhabited

/-- The items from one checkpoint to the next. -/
def checkpointStride : Nat := 64

/-- The checkpoints of items that follow `place` others, which make `row` rows. -/
def Checkpoint.ofItems (place row : Nat) : List Item → List Checkpoint
  | [] => []
  | i :: rest =>
    let after := ofItems (place + 1) (row + i.rows) rest
    if place % checkpointStride = 0 then { item := place, row } :: after else after

/-- A listing: an analysis, the debug records beside it, and the items in order. -/
structure Listing where
  /-- The analysis; an empty listing has none. -/
  analysis : Option Analysis := none
  records : Debug.Index := {}
  items : Array Item := #[]
  checkpoints : Array Checkpoint := #[]
  size : Nat := 0
  deriving Inhabited

namespace Listing

/-- The listing of an analysis. -/
def build (an : Analysis) (records : Debug.Index) : Listing :=
  let sections := an.image.sections.toList.filter (·.executable)
  let items := Item.ofSections records.symbolAt sections an.stream.toList
  { analysis := some an, records, items := items.toArray
    checkpoints := (Checkpoint.ofItems 0 0 items).toArray
    size := (items.map Item.rows).foldr (· + ·) 0 }

/-- What a listing knows about the addresses to which its instructions refer. -/
def resolver (l : Listing) : Resolver :=
  { symbolAt := l.records.symbolAt
    isInstruction := fun a => l.analysis.any (·.isInstruction a) }

/-- The machine whose code is listed. -/
def machine (l : Listing) : Option Machine := l.analysis.map (·.machine)

/-! ## From addresses to rows -/

/-- The item that covers an address, among the first `n`, all of which start at or before it. The
opening of a section is passed over; its closing, and any other item that ends before the address,
means that nothing covers it. -/
def lastCovering (l : Listing) (a : UInt64) : Nat → Option Nat
  | 0 => none
  | n + 1 =>
    match l.items[n]? with
    | some (.opening _) => l.lastCovering a n
    | some (.closing _) => none
    | some i => if a < i.stop then some n else none
    | none => none

/-- The number of the first items that start at or before an address. -/
def countFrom (l : Listing) (a : UInt64) : Nat := Search.endOf (fun i : Item => i.address ≤ a) l.items

/-- The item that covers an address: an entry or a gap. -/
def itemAt (l : Listing) (a : UInt64) : Option Nat := l.lastCovering a (l.countFrom a)

/-- The number of rows before an item. -/
def firstRow (l : Listing) (item : Nat) : Nat :=
  match l.checkpoints[item / checkpointStride]? with
  | some c => c.row + ((l.items.extract c.item item).toList.map Item.rows).foldr (· + ·) 0
  | none => 0

/-- The row to which an address belongs: in the code the row that shows it, or the first row of
its entry; elsewhere the first row of the next entry or gap, or the last row. -/
def rowFor (l : Listing) (a : UInt64) : Nat :=
  match l.itemAt a with
  | some n =>
    match l.items[n]? with
    | some (.gap _ start _) => l.firstRow n + (Item.lineOf a - Item.lineOf start)
    | _ => l.firstRow n
  | none =>
    let n := l.countFrom a
    match (l.items.extract n l.items.size).findIdx? (·.isContent) with
    | some k => l.firstRow (n + k)
    | none => l.size - 1

/-- The first row of the entry that starts at an address. -/
def rowOfEntry (l : Listing) (a : UInt64) : Option Nat := do
  let n ← l.itemAt a
  match l.items[n]? with
  | some (.entry i _) => if i.address = a then some (l.firstRow n) else none
  | _ => none

/-! ## From places to rows -/

/-- The width of the column that shows the bytes of an instruction. -/
def bytesWidth (m : Machine) : Nat := if 4 < m.maxLength then 20 else 11

/-- The row of an entry. -/
def entryRow (l : Listing) (m : Machine) (i : Instruction) (index : Nat) : Row :=
  { kind := if i.isInvalid then .error else .instruction
    address := i.address
    index
    tokens := addressColumn m.addressDigits i.address
      ++ [{ kind := .bytes, text := (Token.formatBytes i.bytes).padRight (bytesWidth m) },
        Token.punctuation "  "]
      ++ Token.ofInstruction m l.resolver i
    location := l.records.lookup i.address }

/-- The row of a label. -/
def labelRow (l : Listing) (a : UInt64) (label : Text) (index : Nat) : Row :=
  { kind := .label, address := a, index
    tokens := [{ kind := .label, text := label ++ ":", target := some a }]
    location := l.records.lookup a }

/-- The bytes of a section from one address up to another; none if that lies before it. -/
def shownBytes (s : Section) (start stop : UInt64) : List UInt8 :=
  (List.range (stop.toNat - start.toNat)).map fun k => s.byteAt (start + UInt64.ofNat k)

/-- A row of a gap: the part of the gap that lies in one line of eight bytes. The end of the last
line of all is no address, so that line is left blank. -/
def gapRow (l : Listing) (s : Section) (start stop : UInt64) (sub index : Nat) : Row :=
  let line := UInt64.ofNat (Item.lineOf start + sub)
  let width := UInt64.ofNat gapRowBytes
  let low := max start (line * width)
  let high := min stop ((line + 1) * width)
  { kind := .bytes, address := low, index
    tokens := addressColumn (rowDigits l.machine) low
      ++ [{ kind := .bytes, text := Token.formatBytes (shownBytes s low high) }]
    location := l.records.lookup low }

/-- The row of a section mark. -/
def markRow (a : UInt64) (text : Text) (index : Nat) : Row :=
  { kind := .sectionMark, address := a, index, tokens := [{ kind := .comment, text }] }

/-- The text at the start of a section. -/
def openingText (l : Listing) (s : Section) : Text :=
  let digits := rowDigits l.machine
  "; section " ++ s.name ++ " " ++ Token.formatAddress digits s.start
    ++ "-" ++ Token.formatAddress digits s.stop

/-- A row of an item; `sub` counts from its first. -/
def itemRow (l : Listing) (i : Item) (sub index : Nat) : Row :=
  match i with
  | .opening s => markRow s.start (l.openingText s) index
  | .closing s => markRow s.stop ("; end of section " ++ s.name) index
  | .gap s start stop => l.gapRow s start stop sub index
  | .entry i label =>
    match label, sub with
    | some t, 0 => l.labelRow i.address t index
    | _, _ =>
      match l.machine with
      | some m => l.entryRow m i index
      | none => {}

/-- The row that lies `sub` rows behind the start of some items. -/
def rowAmong (l : Listing) (sub index : Nat) : List Item → Row
  | [] => {}
  | i :: rest =>
    if sub < i.rows then l.itemRow i sub index else l.rowAmong (sub - i.rows) index rest

/-- The row at a place. -/
def row (l : Listing) (index : Nat) : Row :=
  if index < l.size then
    match Search.last? (fun c : Checkpoint => c.row ≤ index) l.checkpoints with
    | some c =>
      l.rowAmong (index - c.row) index
        (l.items.extract c.item (c.item + checkpointStride)).toList
    | none => {}
  else {}

/-- The listing as a source of rows. -/
def source (l : Listing) : RowSource := { size := l.size, row := l.row, rowFor := l.rowFor }

end Listing

end Disassembler
