import Disassembler.Word
import Disassembler.Instruction

/-!
# Operands of AArch64

The names of registers, conditions, shifts and extensions, the fields that most encodings share,
and the operands built from them. Register 31 is the zero register, except where an encoding takes
the stack pointer.
-/

namespace Disassembler.AArch64

/-! ## Names -/

/-- The 64-bit registers. -/
def wideNames : Array String := #[
  "x0", "x1", "x2", "x3", "x4", "x5", "x6", "x7", "x8", "x9", "x10", "x11", "x12", "x13", "x14",
  "x15", "x16", "x17", "x18", "x19", "x20", "x21", "x22", "x23", "x24", "x25", "x26", "x27", "x28",
  "x29", "x30", "xzr"]

/-- The 32-bit registers. -/
def narrowNames : Array String := #[
  "w0", "w1", "w2", "w3", "w4", "w5", "w6", "w7", "w8", "w9", "w10", "w11", "w12", "w13", "w14",
  "w15", "w16", "w17", "w18", "w19", "w20", "w21", "w22", "w23", "w24", "w25", "w26", "w27", "w28",
  "w29", "w30", "wzr"]

/-- The numbers of the vector registers. -/
def vectorNumbers : Array String := #[
  "0", "1", "2", "3", "4", "5", "6", "7", "8", "9", "10", "11", "12", "13", "14", "15", "16", "17",
  "18", "19", "20", "21", "22", "23", "24", "25", "26", "27", "28", "29", "30", "31"]

/-- The letters of the scalar views of a vector register: 1, 2, 4, 8 and 16 bytes. -/
def vectorLetters : Array String := #["b", "h", "s", "d", "q"]

/-- The conditions; each even one is the opposite of the next. -/
def conditionNames : Array String := #[
  "eq", "ne", "hs", "lo", "mi", "pl", "vs", "vc", "hi", "ls", "ge", "lt", "gt", "le", "al", "nv"]

/-- The shifts. -/
def shiftNames : Array String := #["lsl", "lsr", "asr", "ror"]

/-- The extensions. -/
def extensionNames : Array String := #[
  "uxtb", "uxth", "uxtw", "uxtx", "sxtb", "sxth", "sxtw", "sxtx"]

/-! ## Fields -/

/-- The destination, or the register transferred. -/
def rd (w : UInt32) : Nat := bits w 4 0

/-- The first source, or the base. -/
def rn (w : UInt32) : Nat := bits w 9 5

/-- The addend of a multiplication, or the second register of a pair. -/
def ra (w : UInt32) : Nat := bits w 14 10

/-- The second source, or the index. -/
def rm (w : UInt32) : Nat := bits w 20 16

/-- Does the operation act on 64 bits? -/
def sf (w : UInt32) : Bool := bit w 31

/-! ## Operands -/

/-- The name of a general register of either width. -/
def generalName (wide : Bool) (r : Nat) : Option String :=
  if wide then wideNames[r]? else narrowNames[r]?

/-- The name of a general register, or of the stack pointer in place of the zero register. -/
def stackName (wide : Bool) (r : Nat) : Option String :=
  if r = 31 then some (if wide then "sp" else "wsp") else generalName wide r

/-- A general register. -/
def greg (wide : Bool) (r : Nat) : Operand := .reg (generalName wide r)

/-- A general register or the stack pointer. -/
def sreg (wide : Bool) (r : Nat) : Operand := .reg (stackName wide r)

/-- A scalar view of a vector register. -/
def vreg (kind r : Nat) : Operand :=
  .reg do return (← vectorLetters[kind]?) ++ (← vectorNumbers[r]?)

/-- A condition, or one of its neighbours, as an operand. -/
def conditionOperand (c : Nat) : Operand := .reg conditionNames[c]?

/-- The opposite of a condition. -/
def opposite (c : Nat) : Nat := if c % 2 = 0 then c + 1 else c - 1

/-- A six-bit field, printed in decimal. -/
def small (v : Nat) : Operand := .decimalImm v 6

/-- A sixteen-bit immediate shifted left by an amount that is written when it is not zero. -/
def shiftedImm (v : Nat) (width : UInt8) (amount : Nat) : Operand :=
  .immediate { value := v, width, hex := true
               shift := if amount = 0 then none
                 else some { op := "lsl", amount := UInt8.ofNat amount } }

/-- A general register shifted by an amount that is written when it is not zero. -/
def shiftedReg (wide : Bool) (r kind amount : Nat) : Operand :=
  .register { name := generalName wide r
              shift := if amount = 0 then none
                else some { op := shiftNames[kind]?.getD "", amount := UInt8.ofNat amount } }

/-- An operation that falls through. -/
def plain (m : String) (operands : List Operand) : Option Operation :=
  some { mnemonic := m, operands }

/-- `add`, `adds`, `sub` or `subs`, by bits 30 and 29. -/
def addSubName (w : UInt32) : String :=
  (if bit w 30 then "sub" else "add") ++ (if bit w 29 then "s" else "")

end Disassembler.AArch64
