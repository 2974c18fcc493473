import Disassembler.Debug.Index
import Disassembler.Token

/-!
# Rows

A viewer shows rows. Where they come from does not matter to it: a source has a number of rows,
builds any one of them, and knows the row to which an address belongs.
-/

namespace Disassembler

/-- What a row shows. -/
inductive RowKind where
  /-- The name of the symbol that starts at the next row. -/
  | label
  | instruction
  /-- Bytes that encode nothing. -/
  | error
  /-- Bytes that are not decoded. -/
  | bytes
  /-- The start or the end of a section. -/
  | sectionMark
  deriving DecidableEq, Inhabited

/-- The printed name of a kind of row. -/
def RowKind.name : RowKind → String
  | label => "label"
  | instruction => "instruction"
  | error => "error"
  | bytes => "bytes"
  | sectionMark => "section"

/-- A row. The row outside of every source is empty. -/
structure Row where
  kind : RowKind := .instruction
  address : UInt64 := 0
  /-- The place of the row in its source. -/
  index : Nat := 0
  tokens : List Token := []
  location : Option Debug.Location := none
  deriving DecidableEq, Inhabited

/-- The text of a row. -/
def Row.text (r : Row) : Text := Token.textOf r.tokens

/-- Where rows come from. -/
structure RowSource where
  size : Nat
  /-- The row at a place. -/
  row : Nat → Row
  /-- The place of the row to which an address belongs. -/
  rowFor : UInt64 → Nat

/-- The digits of an address that a row begins with; eight when the machine is not known. -/
def rowDigits (m : Option Machine) : Nat := (m.map Machine.addressDigits).getD 8

/-- The address at the front of a row, and the space behind it. -/
def addressColumn (digits : Nat) (a : UInt64) : List Token :=
  [{ kind := .address, text := Token.formatAddress digits a }, Token.punctuation "  "]

/-- The byte that a section shows at an address: zero where it is not backed. -/
def Section.byteAt (s : Section) (a : UInt64) : UInt8 := s.bytes[s.offset a]?.getD 0

end Disassembler
