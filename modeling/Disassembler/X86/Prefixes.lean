/-!
# Prefixes of x86-64

The bytes before the opcode. They act through a summary: whether the size overrides and the lock
occur, the last repetition and segment override, and the REX byte that stands directly before the
opcode; a REX byte followed by another prefix is ignored.
-/

namespace Disassembler.X86

/-- The repetition prefixes. -/
inductive Repetition where
  /-- `F3` -/
  | whileEqual
  /-- `F2` -/
  | whileNotEqual
  deriving DecidableEq, Inhabited

/-- What the prefixes say. -/
structure Prefixes where
  /-- Is there a `66` byte, which makes operands 16 bits wide? -/
  operandSize : Bool := false
  /-- Is there a `67` byte, which makes addresses 32 bits wide? -/
  addressSize : Bool := false
  lock : Bool := false
  /-- The last repetition. -/
  repetition : Option Repetition := none
  /-- The last segment override. -/
  segment : Option String := none
  /-- The REX byte before the opcode, or zero. -/
  rex : UInt8 := 0
  deriving DecidableEq, Inhabited

namespace Prefixes

/-- The segment that a prefix selects. -/
def segmentName : UInt8 → Option String
  | 0x2E => some "cs"
  | 0x36 => some "ss"
  | 0x3E => some "ds"
  | 0x26 => some "es"
  | 0x64 => some "fs"
  | 0x65 => some "gs"
  | _ => none

/-- The summary after a prefix that is no REX byte, with no REX byte in force. -/
def addLegacy (p : Prefixes) (b : UInt8) : Option Prefixes :=
  let p := { p with rex := 0 }
  match b with
  | 0x66 => some { p with operandSize := true }
  | 0x67 => some { p with addressSize := true }
  | 0xF0 => some { p with lock := true }
  | 0xF2 => some { p with repetition := some .whileNotEqual }
  | 0xF3 => some { p with repetition := some .whileEqual }
  | _ => (segmentName b).map fun s => { p with segment := some s }

/-- The summary after one more byte, if that byte is a prefix. -/
def add (p : Prefixes) (b : UInt8) : Option Prefixes :=
  if 0x40 ≤ b ∧ b ≤ 0x4F then some { p with rex := b } else p.addLegacy b

/-- The summary of the prefixes at the front of a list of bytes, and the bytes after them. -/
def scan (p : Prefixes) : List UInt8 → Prefixes × List UInt8
  | [] => (p, [])
  | b :: bs =>
    match p.add b with
    | some q => q.scan bs
    | none => (p, b :: bs)

/-- REX.W: 64-bit operands. -/
def rexW (p : Prefixes) : Bool := p.rex / 8 % 2 == 1

/-- REX.R: the high bit of the register field. -/
def rexR (p : Prefixes) : Bool := p.rex / 4 % 2 == 1

/-- REX.X: the high bit of the index. -/
def rexX (p : Prefixes) : Bool := p.rex / 2 % 2 == 1

/-- REX.B: the high bit of the base, of the register operand, or of the opcode's register. -/
def rexB (p : Prefixes) : Bool := p.rex % 2 == 1

/-- A three-bit register number with its high bit. -/
def extended (high : Bool) (low : Nat) : Nat := if high then low + 8 else low

/-- The operand width in bits; some operations default to 64. -/
def width (p : Prefixes) (default64 : Bool) : Nat :=
  if p.rexW then 64 else if p.operandSize then 16 else if default64 then 64 else 32

/-- The width of the operations that have a 64-bit form and otherwise 32 bits. -/
def wideOr32 (p : Prefixes) : Nat := if p.rexW then 64 else 32

end Prefixes

end Disassembler.X86
