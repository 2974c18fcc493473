/-!
# Instructions

What a decoder answers. An instruction is an address, the bytes that were read there, and the
operation they encode; bytes that encode nothing make an *invalid entry*, which has no operation
and so neither operands nor a flow. The flow of control carries its target, so that an
instruction has a target exactly when it jumps, branches or calls directly.
-/

namespace Disassembler

/-- Where control goes after an instruction. -/
inductive Flow where
  /-- To the next instruction. -/
  | next
  /-- Always to the target. -/
  | jump (target : UInt64)
  /-- To the target or to the next instruction. -/
  | branch (target : UInt64)
  /-- To the target, and back. -/
  | call (target : UInt64)
  /-- Back to the caller. -/
  | ret
  /-- To an address held in a register or in memory. -/
  | indirect
  deriving DecidableEq, Inhabited

namespace Flow

/-- The target of a direct jump, branch or call. -/
def target? : Flow → Option UInt64
  | jump t | branch t | call t => some t
  | next | ret | indirect => none

/-- The printed name of the kind of flow. -/
def name : Flow → String
  | next => "none"
  | jump _ => "branch"
  | branch _ => "cond_branch"
  | call _ => "call"
  | ret => "return"
  | indirect => "indirect"

/-- One flow of each kind. -/
def kinds : List Flow := [next, jump 0, branch 0, call 0, ret, indirect]

end Flow

/-- A shift or an extension of a register, by a fixed amount or by another register. -/
structure Shift where
  op : String
  amount : UInt8 := 0
  register : Option String := none
  deriving DecidableEq, Inhabited

/-- A register operand. -/
structure RegisterOperand where
  /-- The name; a register without one is printed as a question mark. -/
  name : Option String
  /-- Written back after the transfer, as in `r0!`. -/
  writeback : Bool := false
  /-- The first register of a list in braces. -/
  opensList : Bool := false
  /-- The last register of a list in braces. -/
  closesList : Bool := false
  shift : Option Shift := none
  deriving DecidableEq, Inhabited

/-- An immediate operand. -/
structure ImmediateOperand where
  value : Int
  /-- The bits of the encoded field. -/
  width : UInt8 := 0
  /-- Is the field encoded as a signed number? -/
  signed : Bool := false
  /-- Is the value printed in hexadecimal? -/
  hex : Bool := false
  shift : Option Shift := none
  deriving DecidableEq, Inhabited

/-- When the offset of a memory operand is added to its base. -/
inductive IndexMode where
  | offset
  | preIndexed
  | postIndexed
  deriving DecidableEq, Inhabited

/-- A memory operand. -/
structure MemoryOperand where
  base : Option String := none
  index : Option String := none
  segment : Option String := none
  scale : UInt8 := 1
  displacement : Int := 0
  /-- The bits of the encoded displacement. -/
  width : UInt8 := 0
  /-- Is the displacement encoded as a signed number? -/
  signed : Bool := false
  /-- The bytes accessed, zero when the operation implies them. -/
  size : UInt8 := 0
  mode : IndexMode := .offset
  shift : Option Shift := none
  /-- Is the index subtracted? -/
  negated : Bool := false
  /-- The effective address, when it is relative to the instruction. -/
  pcTarget : Option UInt64 := none
  deriving DecidableEq, Inhabited

/-- An operand. -/
inductive Operand where
  | register (r : RegisterOperand)
  | immediate (i : ImmediateOperand)
  | memory (m : MemoryOperand)
  /-- A code or data address given relative to the instruction. -/
  | relative (target : UInt64)
  deriving DecidableEq, Inhabited

namespace Operand

/-- A plain register. -/
def reg (name : Option String) : Operand := .register { name }

/-- A plain register of a known name. -/
def named (name : String) : Operand := .register { name := some name }

/-- A signed field, printed in decimal. -/
def signedImm (value : Int) (width : UInt8) : Operand :=
  .immediate { value, width, signed := true }

/-- An unsigned field, printed in decimal. -/
def decimalImm (value : Int) (width : UInt8) : Operand := .immediate { value, width }

/-- An unsigned field, printed in hexadecimal. -/
def hexImm (value : Int) (width : UInt8) : Operand := .immediate { value, width, hex := true }

end Operand

/-- What an encoding says: an operation, its operands, and where control goes. -/
structure Operation where
  mnemonic : String
  operands : List Operand := []
  flow : Flow := .next
  deriving DecidableEq, Inhabited

/-- The flow of an operation whose last operand is its target. -/
def Operation.withTarget (mnemonic : String) (operands : List Operand) (flow : UInt64 → Flow)
    (target : UInt64) : Operation :=
  { mnemonic, operands := operands ++ [.relative target], flow := flow target }

/-- A decoded instruction, or an invalid entry when it has no operation. -/
structure Instruction where
  address : UInt64
  /-- The bytes of the encoding. -/
  bytes : List UInt8
  operation : Option Operation
  deriving DecidableEq, Inhabited

namespace Instruction

/-- The number of bytes of the encoding. -/
def length (i : Instruction) : Nat := i.bytes.length

/-- The address after the last byte, modulo `2 ^ 64`. -/
def stop (i : Instruction) : UInt64 := i.address + UInt64.ofNat i.length

/-- Do the bytes encode nothing? -/
def isInvalid (i : Instruction) : Bool := i.operation.isNone

/-- The mnemonic; two question marks for an invalid entry. -/
def mnemonic (i : Instruction) : String :=
  match i.operation with
  | some op => op.mnemonic
  | none => "??"

/-- The operands; an invalid entry has none. -/
def operands (i : Instruction) : List Operand :=
  match i.operation with
  | some op => op.operands
  | none => []

/-- Where control goes; past an invalid entry it falls through. -/
def flow (i : Instruction) : Flow :=
  match i.operation with
  | some op => op.flow
  | none => .next

/-- The longest entry, in bytes. -/
def maxBytes : Nat := 15

/-- The invalid entry of the first `length` bytes of `data`, of at least one byte and of no more
than there are. With no data at all it is one byte long and shows a zero. -/
def invalid (data : List UInt8) (address : UInt64) (length : Nat) : Instruction :=
  let taken := data.take (max 1 (min length maxBytes))
  { address, bytes := if taken.isEmpty then [0] else taken, operation := none }

end Instruction

end Disassembler
