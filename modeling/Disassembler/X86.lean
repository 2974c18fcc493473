import Disassembler.X86.Primary
import Disassembler.X86.Float
import Disassembler.X86.Secondary

/-!
# x86-64

An instruction is prefixes, an opcode and what the opcode asks for, in at most fifteen bytes. When
bytes run out, all of them form an invalid entry; when an opcode is undefined, the bytes read so
far do. Displacements count from the end of the instruction, so the targets of an operation are
moved by the address of its end once the end is known.
-/

namespace Disassembler

/-- The flow with its target moved by a distance. -/
def Flow.moveTarget (d : UInt64) : Flow → Flow
  | .jump t => .jump (t + d)
  | .branch t => .branch (t + d)
  | .call t => .call (t + d)
  | .next => .next
  | .ret => .ret
  | .indirect => .indirect

/-- The operand with its target moved by a distance. -/
def Operand.moveTarget (d : UInt64) : Operand → Operand
  | .relative t => .relative (t + d)
  | .memory m => .memory { m with pcTarget := m.pcTarget.map (· + d) }
  | o => o

/-- The operation with every target moved by a distance. -/
def Operation.moveTargets (op : Operation) (d : UInt64) : Operation :=
  { op with operands := op.operands.map (·.moveTarget d), flow := op.flow.moveTarget d }

namespace X86

/-- What follows the prefixes: an opcode and its arguments. -/
def body (p : Prefixes) : ByteReader Operation := do
  let opcode := (← ByteReader.byte).toNat
  if opcode = 0x0F then secondary p (← ByteReader.byte).toNat
  else if 0xD8 ≤ opcode ∧ opcode ≤ 0xDF then floatingPoint p opcode
  else primary p opcode

/-- The operation with a lock that is written before its name. -/
def withLock (p : Prefixes) (op : Operation) : Operation :=
  if p.lock then { op with mnemonic := "lock " ++ op.mnemonic } else op

/-- The instruction at the front of a list of bytes. -/
def decode (data : List UInt8) (address : UInt64) : Instruction :=
  let bytes := data.take Instruction.maxBytes
  let (p, opcode) := Prefixes.scan {} bytes
  match (body p).run opcode with
  | .done op rest =>
    let length := bytes.length - rest.length
    { address, bytes := bytes.take length
      operation := some ((withLock p op).moveTargets (address + UInt64.ofNat length)) }
  | .undefined rest => .invalid data address (bytes.length - rest.length)
  | .exhausted => .invalid data address bytes.length

end X86

end Disassembler
