import Disassembler.AArch64.Control
import Disassembler.AArch64.Data
import Disassembler.AArch64.Memory

/-!
# AArch64

The 64-bit integer set with the transfers of vector registers. The major opcode in bits 28 to 25
chooses between the four families; vector arithmetic and the reserved encodings are invalid.
-/

namespace Disassembler.AArch64

/-- The operation that a word encodes at an address. -/
def decode (w : UInt32) (addr : UInt64) : Option Operation :=
  match bits w 28 25 with
  | 0x8 | 0x9 => dataImmediate w addr
  | 0xA | 0xB => if bits w 31 22 = 0x354 then system w else branch w addr
  | 0x4 | 0x6 | 0xC | 0xE => loadStore w addr
  | 0x5 | 0xD => dataRegister w
  | _ => none

end Disassembler.AArch64
