import Disassembler.Word
import Disassembler.Instruction

/-!
# MIPS

The 32-bit base set: register and immediate arithmetic, jumps and branches with their likely
forms, loads and stores, traps, bit fields, and the moves and branches of the first two
coprocessors. Addresses have 32 bits, so every target is reduced modulo `2 ^ 32`.
-/

namespace Disassembler.Mips

/-! ## Names -/

/-- The general registers. -/
def generalNames : Array String := #[
  "zero", "at", "v0", "v1", "a0", "a1", "a2", "a3", "t0", "t1", "t2", "t3", "t4", "t5", "t6", "t7",
  "s0", "s1", "s2", "s3", "s4", "s5", "s6", "s7", "t8", "t9", "k0", "k1", "gp", "sp", "fp", "ra"]

/-- The floating-point registers. -/
def floatNames : Array String := #[
  "f0", "f1", "f2", "f3", "f4", "f5", "f6", "f7", "f8", "f9", "f10", "f11", "f12", "f13", "f14",
  "f15", "f16", "f17", "f18", "f19", "f20", "f21", "f22", "f23", "f24", "f25", "f26", "f27", "f28",
  "f29", "f30", "f31"]

/-- The registers of the system coprocessor. -/
def systemNames : Array String := #[
  "Index", "Random", "EntryLo0", "EntryLo1", "Context", "PageMask", "Wired", "HWREna",
  "BadVAddr", "Count", "EntryHi", "Compare", "Status", "Cause", "EPC", "PRId",
  "Config", "LLAddr", "WatchLo", "WatchHi", "cop0r20", "cop0r21", "cop0r22", "Debug",
  "DEPC", "PerfCnt", "ErrCtl", "CacheErr", "TagLo", "TagHi", "ErrorEPC", "DESAVE"]

/-! ## Fields -/

/-- The first source register. -/
def rs (w : UInt32) : Nat := bits w 25 21

/-- The second source register. -/
def rt (w : UInt32) : Nat := bits w 20 16

/-- The destination register. -/
def rd (w : UInt32) : Nat := bits w 15 11

/-- The shift amount. -/
def sa (w : UInt32) : Nat := bits w 10 6

/-- The minor opcode. -/
def funct (w : UInt32) : Nat := bits w 5 0

/-- The immediate as a number. -/
def immU (w : UInt32) : Nat := bits w 15 0

/-- The immediate as a signed number. -/
def immS (w : UInt32) : Int := signExtend 16 (immU w)

/-- The target of a branch: the offset counts words from the delay slot. -/
def branchTarget (w : UInt32) (addr : UInt64) : UInt64 := low32 (moveBy (addr + 4) (4 * immS w))

/-- The target of a jump: a word within the 256 MiB region of the delay slot. -/
def jumpTarget (w : UInt32) (addr : UInt64) : UInt64 :=
  UInt64.ofNat (((addr + 4).toNat % 1 <<< 32) >>> 28 <<< 28 + 4 * bits w 25 0)

/-! ## Operands -/

/-- A general register. -/
def greg (r : Nat) : Operand := .reg generalNames[r]?

/-- A floating-point register. -/
def freg (r : Nat) : Operand := .reg floatNames[r]?

/-- A register of the system coprocessor. -/
def sysreg (r : Nat) : Operand := .reg systemNames[r]?

/-- A five-bit field, printed in decimal. -/
def small (v : Nat) : Operand := .decimalImm v 5

/-- The immediate as a signed operand. -/
def simm (w : UInt32) : Operand := .signedImm (immS w) 16

/-- The immediate as an unsigned operand. -/
def uimm (w : UInt32) : Operand := .hexImm (immU w) 16

/-- The first source register displaced by the immediate. -/
def based (w : UInt32) (size : UInt8) : Operand :=
  .memory { base := generalNames[rs w]?, displacement := immS w, width := 16, size }

/-- An operation that falls through. -/
def plain (m : String) (operands : List Operand) : Option Operation :=
  some { mnemonic := m, operands }

/-- A conditional branch. -/
def branchTo (m : String) (operands : List Operand) (w : UInt32) (addr : UInt64) :
    Option Operation :=
  some (.withTarget m operands .branch (branchTarget w addr))

/-- A branch that is always taken. -/
def jumpTo (m : String) (w : UInt32) (addr : UInt64) : Option Operation :=
  some (.withTarget m [] .jump (branchTarget w addr))

/-- A branch that leaves a return address. -/
def callTo (m : String) (operands : List Operand) (w : UInt32) (addr : UInt64) :
    Option Operation :=
  some (.withTarget m operands .call (branchTarget w addr))

/-! ## Register operations -/

/-- The destination and the two sources. -/
def threeRegs (m : String) (w : UInt32) : Option Operation :=
  plain m [greg (rd w), greg (rs w), greg (rt w)]

/-- The two sources. -/
def twoSources (m : String) (w : UInt32) : Option Operation := plain m [greg (rs w), greg (rt w)]

/-- The destination, the second source and a register that holds the shift amount. -/
def variableShift (m : String) (w : UInt32) : Option Operation :=
  plain m [greg (rd w), greg (rt w), greg (rs w)]

/-- The destination, the second source and a shift amount. -/
def fixedShift (m : String) (w : UInt32) : Option Operation :=
  plain m [greg (rd w), greg (rt w), small (sa w)]

/-- The destination and the first source. -/
def fromFirst (m : String) (w : UInt32) : Option Operation := plain m [greg (rd w), greg (rs w)]

/-- The destination and the second source. -/
def fromSecond (m : String) (w : UInt32) : Option Operation := plain m [greg (rd w), greg (rt w)]

/-- Shifts, jumps to a register, multiplication and division, arithmetic and traps. -/
def special (w : UInt32) : Option Operation :=
  match funct w with
  | 0x00 =>
    if w = 0 then plain "nop" []
    else if w = 0x40 then plain "ssnop" []
    else if w = 0xC0 then plain "ehb" []
    else fixedShift "sll" w
  | 0x02 => fixedShift (if rs w = 1 then "rotr" else "srl") w
  | 0x03 => fixedShift "sra" w
  | 0x04 => variableShift "sllv" w
  | 0x06 => variableShift (if sa w = 1 then "rotrv" else "srlv") w
  | 0x07 => variableShift "srav" w
  | 0x08 =>
    some { mnemonic := "jr", operands := [greg (rs w)],
           flow := if rs w = 31 then .ret else .indirect }
  | 0x09 =>
    some { mnemonic := "jalr", flow := .indirect,
           operands := if rd w = 31 then [greg (rs w)] else [greg (rd w), greg (rs w)] }
  | 0x0A => threeRegs "movz" w
  | 0x0B => threeRegs "movn" w
  | 0x0C => plain "syscall" []
  | 0x0D => plain "break" []
  | 0x0F => plain "sync" []
  | 0x10 => plain "mfhi" [greg (rd w)]
  | 0x11 => plain "mthi" [greg (rs w)]
  | 0x12 => plain "mflo" [greg (rd w)]
  | 0x13 => plain "mtlo" [greg (rs w)]
  | 0x18 => twoSources "mult" w
  | 0x19 => twoSources "multu" w
  | 0x1A => twoSources "div" w
  | 0x1B => twoSources "divu" w
  | 0x20 => threeRegs "add" w
  | 0x21 =>
    if rt w = 0 then fromFirst "move" w
    else if rs w = 0 then fromSecond "move" w
    else threeRegs "addu" w
  | 0x22 => if rs w = 0 then fromSecond "neg" w else threeRegs "sub" w
  | 0x23 => if rs w = 0 then fromSecond "negu" w else threeRegs "subu" w
  | 0x24 => threeRegs "and" w
  | 0x25 =>
    if rt w = 0 then fromFirst "move" w
    else if rs w = 0 then fromSecond "move" w
    else threeRegs "or" w
  | 0x26 => threeRegs "xor" w
  | 0x27 => if rt w = 0 then fromFirst "not" w else threeRegs "nor" w
  | 0x2A => threeRegs "slt" w
  | 0x2B => threeRegs "sltu" w
  | 0x30 => twoSources "tge" w
  | 0x31 => twoSources "tgeu" w
  | 0x32 => twoSources "tlt" w
  | 0x33 => twoSources "tltu" w
  | 0x34 => twoSources "teq" w
  | 0x36 => twoSources "tne" w
  | _ => none

/-- Multiply-accumulate and the counting of leading bits. -/
def special2 (w : UInt32) : Option Operation :=
  match funct w with
  | 0x00 => twoSources "madd" w
  | 0x01 => twoSources "maddu" w
  | 0x02 => threeRegs "mul" w
  | 0x04 => twoSources "msub" w
  | 0x05 => twoSources "msubu" w
  | 0x20 => fromFirst "clz" w
  | 0x21 => fromFirst "clo" w
  | 0x3F => plain "sdbbp" []
  | _ => none

/-- Bit fields, byte swaps and hardware registers. -/
def special3 (w : UInt32) : Option Operation :=
  match funct w with
  | 0x00 => plain "ext" [greg (rt w), greg (rs w), small (sa w), small (rd w + 1)]
  | 0x04 =>
    if rd w < sa w then none
    else plain "ins" [greg (rt w), greg (rs w), small (sa w), small (rd w - sa w + 1)]
  | 0x20 =>
    match sa w with
    | 0x02 => fromSecond "wsbh" w
    | 0x10 => fromSecond "seb" w
    | 0x18 => fromSecond "seh" w
    | _ => none
  | 0x3B => plain "rdhwr" [greg (rt w), small (rd w)]
  | _ => none

/-! ## Branches -/

/-- Comparisons of one register with zero, and traps on an immediate. -/
def regimm (w : UInt32) (addr : UInt64) : Option Operation :=
  let r := [greg (rs w)]
  let trap (m : String) := plain m [greg (rs w), simm w]
  match rt w with
  | 0x00 => branchTo "bltz" r w addr
  | 0x01 => if rs w = 0 then jumpTo "b" w addr else branchTo "bgez" r w addr
  | 0x02 => branchTo "bltzl" r w addr
  | 0x03 => branchTo "bgezl" r w addr
  | 0x08 => trap "tgei"
  | 0x09 => trap "tgeiu"
  | 0x0A => trap "tlti"
  | 0x0B => trap "tltiu"
  | 0x0C => trap "teqi"
  | 0x0E => trap "tnei"
  | 0x10 => callTo "bltzal" r w addr
  | 0x11 => if rs w = 0 then callTo "bal" [] w addr else callTo "bgezal" r w addr
  | 0x12 => callTo "bltzall" r w addr
  | 0x13 => callTo "bgezall" r w addr
  | 0x1F => plain "synci" [based w 0]
  | _ => none

/-- A comparison of two registers, under its short name when the second is the zero register. -/
def compare (short full : String) (w : UInt32) (addr : UInt64) : Option Operation :=
  if rt w = 0 then branchTo short [greg (rs w)] w addr
  else branchTo full [greg (rs w), greg (rt w)] w addr

/-! ## Coprocessors -/

/-- Moves to and from the system coprocessor, and its operations. -/
def cop0 (w : UInt32) : Option Operation :=
  match rs w with
  | 0x00 => plain "mfc0" [greg (rt w), sysreg (rd w)]
  | 0x04 => plain "mtc0" [greg (rt w), sysreg (rd w)]
  | 0x0B => plain (if bit w 5 then "ei" else "di") [greg (rt w)]
  | _ =>
    if !bit w 25 then none
    else match funct w with
      | 0x01 => plain "tlbr" []
      | 0x02 => plain "tlbwi" []
      | 0x06 => plain "tlbwr" []
      | 0x08 => plain "tlbp" []
      | 0x10 => plain "rfe" []
      | 0x18 => some { mnemonic := "eret", flow := .ret }
      | 0x1F => some { mnemonic := "deret", flow := .ret }
      | 0x20 => plain "wait" []
      | _ => none

/-- The branches on the floating-point condition. -/
def conditionBranches : Array String := #["bc1f", "bc1t", "bc1fl", "bc1tl"]

/-- Moves to and from the floating-point coprocessor, and branches on its condition. -/
def cop1 (w : UInt32) (addr : UInt64) : Option Operation :=
  match rs w with
  | 0x00 => plain "mfc1" [greg (rt w), freg (rd w)]
  | 0x02 => plain "cfc1" [greg (rt w), small (rd w)]
  | 0x03 => plain "mfhc1" [greg (rt w), freg (rd w)]
  | 0x04 => plain "mtc1" [greg (rt w), freg (rd w)]
  | 0x06 => plain "ctc1" [greg (rt w), small (rd w)]
  | 0x07 => plain "mthc1" [greg (rt w), freg (rd w)]
  | 0x08 => conditionBranches[rt w % 4]?.bind fun m => branchTo m [] w addr
  | _ => none

/-! ## The decoder -/

/-- Loads, stores and accesses that name a cache operation, by major opcode. -/
def access (w : UInt32) : Option Operation :=
  let general (m : String) (size : UInt8) := plain m [greg (rt w), based w size]
  let float (m : String) (size : UInt8) := plain m [freg (rt w), based w size]
  match bits w 31 26 with
  | 0x20 => general "lb" 1
  | 0x21 => general "lh" 2
  | 0x22 => general "lwl" 4
  | 0x23 => general "lw" 4
  | 0x24 => general "lbu" 1
  | 0x25 => general "lhu" 2
  | 0x26 => general "lwr" 4
  | 0x28 => general "sb" 1
  | 0x29 => general "sh" 2
  | 0x2A => general "swl" 4
  | 0x2B => general "sw" 4
  | 0x2E => general "swr" 4
  | 0x2F => plain "cache" [.hexImm (rt w) 5, based w 0]
  | 0x30 => general "ll" 4
  | 0x31 => float "lwc1" 4
  | 0x33 => plain "pref" [small (rt w), based w 0]
  | 0x35 => float "ldc1" 8
  | 0x38 => general "sc" 4
  | 0x39 => float "swc1" 4
  | 0x3D => float "sdc1" 8
  | _ => none

/-- Arithmetic with the immediate, by major opcode. -/
def immediate (w : UInt32) : Option Operation :=
  let withS (m : String) := plain m [greg (rt w), greg (rs w), simm w]
  let withU (m : String) := plain m [greg (rt w), greg (rs w), uimm w]
  match bits w 31 26 with
  | 0x08 => withS "addi"
  | 0x09 => if rs w = 0 then plain "li" [greg (rt w), simm w] else withS "addiu"
  | 0x0A => withS "slti"
  | 0x0B => withS "sltiu"
  | 0x0C => withU "andi"
  | 0x0D => if rs w = 0 then plain "li" [greg (rt w), uimm w] else withU "ori"
  | 0x0E => withU "xori"
  | 0x0F => plain "lui" [greg (rt w), uimm w]
  | _ => none

/-- The operation that a word encodes at an address. -/
def decode (w : UInt32) (addr : UInt64) : Option Operation :=
  match bits w 31 26 with
  | 0x00 => special w
  | 0x01 => regimm w addr
  | 0x02 => some (.withTarget "j" [] .jump (jumpTarget w addr))
  | 0x03 => some (.withTarget "jal" [] .call (jumpTarget w addr))
  | 0x04 =>
    if rs w = 0 ∧ rt w = 0 then jumpTo "b" w addr else compare "beqz" "beq" w addr
  | 0x05 => compare "bnez" "bne" w addr
  | 0x06 => branchTo "blez" [greg (rs w)] w addr
  | 0x07 => branchTo "bgtz" [greg (rs w)] w addr
  | 0x10 => cop0 w
  | 0x11 => cop1 w addr
  | 0x14 => compare "beqzl" "beql" w addr
  | 0x15 => compare "bnezl" "bnel" w addr
  | 0x16 => branchTo "blezl" [greg (rs w)] w addr
  | 0x17 => branchTo "bgtzl" [greg (rs w)] w addr
  | 0x1C => special2 w
  | 0x1F => special3 w
  | major => if major < 0x10 then immediate w else access w

end Disassembler.Mips
