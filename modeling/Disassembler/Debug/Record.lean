import Disassembler.Text

/-!
# Debug records

What a debug file says about a program: which lines and functions its addresses come from, and
descriptions of types, which are passed on as they are. Ranges are half open. The order in which
records are registered matters, since the first to claim an address keeps it.
-/

namespace Disassembler.Debug

/-- What is known about a range of addresses. -/
structure Record where
  start : UInt64
  stop : UInt64
  symbol : Text := []
  file : Text := []
  /-- The line, zero when it is not known. -/
  line : UInt32 := 0
  function : Text := []
  deriving DecidableEq, Inhabited

/-- The addresses of a function. -/
structure FunctionRange where
  start : UInt64
  stop : UInt64
  name : Text
  deriving DecidableEq, Inhabited

/-- The description of a type. -/
structure TypeRecord where
  name : Text
  data : Text
  deriving DecidableEq, Inhabited

/-- Everything that has been registered, in order. -/
structure Records where
  records : Array Record := #[]
  functions : Array FunctionRange := #[]
  types : Array TypeRecord := #[]
  deriving DecidableEq, Inhabited

namespace Records

/-- One more record. -/
def addRecord (rs : Records) (r : Record) : Records := { rs with records := rs.records.push r }

/-- One more function. -/
def addFunction (rs : Records) (f : FunctionRange) : Records :=
  { rs with functions := rs.functions.push f }

/-- One more type. -/
def addType (rs : Records) (t : TypeRecord) : Records := { rs with types := rs.types.push t }

end Records

end Disassembler.Debug
