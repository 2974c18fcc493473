import Disassembler.Machine
import Disassembler.RiscV
import Disassembler.Mips
import Disassembler.Arm
import Disassembler.AArch64
import Disassembler.X86

/-!
# Decoding

One instruction at the front of a list of bytes, for each machine, and linear disassembly, which
cuts a list of bytes into instructions and invalid entries from its start to its end.
-/

namespace Disassembler

/-- The instruction of a machine whose encodings are words. Fewer than four bytes are invalid. -/
def decodeWord (order : ByteOrder) (operation : UInt32 → UInt64 → Option Operation)
    (data : List UInt8) (address : UInt64) : Instruction :=
  match order.word? data with
  | some w => { address, bytes := data.take 4, operation := operation w address }
  | none => .invalid data address data.length

/-- The instruction at the front of a list of bytes. Every machine but two reads its words in the
byte order at hand; RISC-V words are little-endian, and x86-64 has no words. -/
def decode (machine : Machine) (order : ByteOrder) (data : List UInt8) (address : UInt64) :
    Instruction :=
  match machine with
  | .x86_64 => X86.decode data address
  | .arm => decodeWord order Arm.decode data address
  | .aarch64 => decodeWord order AArch64.decode data address
  | .riscv64 => decodeWord .little RiscV.decode data address
  | .mips => decodeWord order Mips.decode data address

/-- All instructions of a list of bytes, each after the one before. -/
def disassemble (machine : Machine) (order : ByteOrder) (data : List UInt8) (address : UInt64) :
    List Instruction :=
  match data with
  | [] => []
  | b :: rest =>
    let i := decode machine order (b :: rest) address
    i :: disassemble machine order (rest.drop (i.length - 1)) i.stop
termination_by data.length
decreasing_by simp only [List.length_drop, List.length_cons]; omega

end Disassembler
