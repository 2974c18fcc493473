import Disassembler.Instruction
import Disassembler.Search

/-!
# Coverage

The entries that are confirmed, in order of their addresses. Code is decoded from many starting
points at once, and no two confirmed entries may overlap; so before an entry is added, coverage is
asked whether its address is taken and where the next entry starts.
-/

namespace Disassembler

/-- The confirmed entries, by address. -/
structure Coverage where
  entries : Array Instruction := #[]
  deriving DecidableEq, Inhabited

namespace Coverage

/-- Does a confirmed entry start at an address? -/
def isStart (c : Coverage) (a : UInt64) : Bool :=
  (Search.next? (fun i : Instruction => i.address < a) c.entries).any (·.address == a)

/-- Does an address lie inside a confirmed entry, but not at its start? -/
def inside (c : Coverage) (a : UInt64) : Bool :=
  (Search.last? (fun i : Instruction => i.address ≤ a) c.entries).any fun i =>
    i.address != a && a < i.stop

/-- Is an address taken by a confirmed entry? -/
def covers (c : Coverage) (a : UInt64) : Bool := c.isStart a || c.inside a

/-- The start of the first confirmed entry after an address. -/
def nextStart (c : Coverage) (a : UInt64) : Option UInt64 :=
  (Search.next? (fun i : Instruction => i.address ≤ a) c.entries).map (·.address)

/-- The coverage with one more entry. -/
def insert (c : Coverage) (i : Instruction) : Coverage :=
  { entries := c.entries.insertIdx (Search.endOf (·.address < i.address) c.entries) i
      (Search.endOf_le _ _) }

end Coverage

end Disassembler
