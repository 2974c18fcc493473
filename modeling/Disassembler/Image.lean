import Disassembler.Instruction
import Disassembler.Machine
import Disassembler.Search
import Disassembler.Symbol
import Disassembler.Word

/-!
# Images

A binary as it lies in memory: sections with the bytes that back them, a table of symbols and an
entry point. `Image.build` brings both tables into their normal form. Sections ascend by start and
do not overlap; of two that do, the one that starts first is kept. Symbols ascend by address, one
to an address, and an entry point in a section always has a name.
-/

namespace Disassembler

/-- What may be done with the bytes of a section. -/
structure Permissions where
  read : Bool := false
  write : Bool := false
  execute : Bool := false
  deriving DecidableEq, Inhabited

/-- A range of addresses, with the bytes that back its front; the rest reads as nothing. -/
structure Section where
  name : Text
  start : UInt64
  size : UInt64
  permissions : Permissions
  bytes : Array UInt8
  deriving DecidableEq, Inhabited

namespace Section

/-- The address after the last, modulo `2 ^ 64`. -/
def stop (s : Section) : UInt64 := s.start + s.size

/-- Does the section hold an address? -/
def contains (s : Section) (a : UInt64) : Bool := s.start ≤ a && a < s.stop

/-- May the bytes be executed? -/
def executable (s : Section) : Bool := s.permissions.execute

/-- How far an address lies behind the start. -/
def offset (s : Section) (a : UInt64) : Nat := (a - s.start).toNat

/-- The section without the bytes that exceed its size. -/
def clipped (s : Section) : Section := { s with bytes := s.bytes.extract 0 s.size.toNat }

/-- At most `n` of the backing bytes from an address on. -/
def window (s : Section) (a : UInt64) (n : Nat) : List UInt8 :=
  (s.bytes.extract (s.offset a) (s.offset a + n)).toList

end Section

/-- A binary as it lies in memory. -/
structure Image where
  /-- The machine whose code it holds, if it is known. -/
  machine : Option Machine
  order : ByteOrder
  entry : UInt64
  sections : Array Section
  symbols : Array Symbol
  deriving DecidableEq, Inhabited

namespace Image

/-! ## Construction -/

/-- The sections that do not start inside the one kept before them. -/
def keepDisjoint (kept : Array Section) : List Section → Array Section
  | [] => kept
  | s :: rest =>
    if kept.back?.any fun last => s.start < last.stop then keepDisjoint kept rest
    else keepDisjoint (kept.push s.clipped) rest

/-- The table of sections: by start, without empty and overlapping ones. -/
def sectionTable (sections : List Section) : Array Section :=
  keepDisjoint #[] ((sections.mergeSort fun s t => s.start ≤ t.start).filter (·.size ≠ 0))

/-- The first symbol of each run of symbols with one address. -/
def firstOfEach : List Symbol → List Symbol
  | [] => []
  | [s] => [s]
  | s :: t :: rest =>
    if s.address = t.address then firstOfEach (s :: rest) else s :: firstOfEach (t :: rest)
termination_by symbols => symbols.length

/-- The table of symbols: by address, with the preferred symbol of each. -/
def symbolTable (symbols : List Symbol) : List Symbol :=
  firstOfEach (symbols.mergeSort Symbol.precedes)

/-- The table with a symbol in place of any other at its address. -/
def withSymbol (e : Symbol) (symbols : List Symbol) : List Symbol :=
  symbols.filter (·.address < e.address) ++ e :: symbols.filter (e.address < ·.address)

/-- The section that holds an address. -/
def sectionOf? (sections : Array Section) (a : UInt64) : Option Section :=
  (Search.last? (fun s : Section => s.start ≤ a) sections).filter (·.contains a)

/-- The image of the given sections and symbols. An entry point that lies in a section gets a
symbol of its own, unless one that is not intrinsic is there. -/
def build (machine : Option Machine) (order : ByteOrder) (entry : UInt64)
    (sections : List Section) (symbols : List Symbol) : Image :=
  let sections := sectionTable sections
  let symbols := symbolTable symbols
  let named := symbols.any fun s => s.address = entry ∧ ¬ s.isIntrinsic
  let symbols :=
    if (sectionOf? sections entry).isSome ∧ ¬ named then
      withSymbol (Symbol.entryPoint entry) symbols
    else symbols
  { machine, order, entry, sections, symbols := symbols.toArray }

/-! ## Questions -/

/-- The section that holds an address. -/
def sectionFor (image : Image) (a : UInt64) : Option Section := sectionOf? image.sections a

/-- The symbol at exactly an address, intrinsic ones included. -/
def symbolAt (image : Image) (a : UInt64) : Option Symbol :=
  (Search.next? (fun s : Symbol => s.address < a) image.symbols).filter (·.address == a)

/-- The last symbol among the first `n` that is not intrinsic, if only intrinsic ones follow it
and none of them lies below an address. -/
def lastNamed (symbols : Array Symbol) (low : UInt64) : Nat → Option Symbol
  | 0 => none
  | n + 1 => do
    let s ← symbols[n]?
    if s.address < low then none
    else if s.isIntrinsic then lastNamed symbols low n
    else some s

/-- The nearest symbol at or before an address that is in the same section and not intrinsic. -/
def symbolBefore (image : Image) (a : UInt64) : Option Symbol := do
  let s ← image.sectionFor a
  lastNamed image.symbols s.start (Search.endOf (fun t : Symbol => t.address ≤ a) image.symbols)

/-- At most `n` of the bytes from an address to the end of its section's backing. -/
def window (image : Image) (a : UInt64) (n : Nat) : List UInt8 :=
  match image.sectionFor a with
  | some s => s.window a n
  | none => []

/-- The bytes from an address to the end of its section's backing. -/
def bytesFrom (image : Image) (a : UInt64) : List UInt8 :=
  match image.sectionFor a with
  | some s => s.window a s.bytes.size
  | none => []

/-- Exactly `n` bytes from an address on; nothing if one of them is not backed. -/
def read (image : Image) (a : UInt64) (n : Nat) : Option (List UInt8) :=
  let bs := image.window a n
  if bs.length = n then some bs else none

/-- The widest pointer, in bytes. -/
def maxPointer : Nat := 8

/-- A pointer of some bytes in the image's byte order. -/
def readPointer (image : Image) (a : UInt64) (width : Nat) : Option UInt64 :=
  if width = 0 ∨ maxPointer < width then none
  else (image.read a width).map fun bs => UInt64.ofNat (image.order.value bs)

end Image

end Disassembler
