import Disassembler.Word
import Disassembler.Instruction

/-!
# RISC-V

The 64-bit base instruction set with the extensions M, A, Zicsr and Zifencei and the loads and
stores of F and D, under the aliases that assemblers print: `nop`, `li`, `mv`, `ret`, `beqz` and
so on. Every encoding is one little-endian word; compressed encodings are invalid.
-/

namespace Disassembler.RiscV

/-! ## Names -/

/-- The integer registers. -/
def integerNames : Array String := #[
  "zero", "ra", "sp", "gp", "tp", "t0", "t1", "t2", "s0", "s1", "a0", "a1", "a2", "a3", "a4", "a5",
  "a6", "a7", "s2", "s3", "s4", "s5", "s6", "s7", "s8", "s9", "s10", "s11", "t3", "t4", "t5", "t6"]

/-- The floating-point registers. -/
def floatNames : Array String := #[
  "ft0", "ft1", "ft2", "ft3", "ft4", "ft5", "ft6", "ft7",
  "fs0", "fs1", "fa0", "fa1", "fa2", "fa3", "fa4", "fa5",
  "fa6", "fa7", "fs2", "fs3", "fs4", "fs5", "fs6", "fs7",
  "fs8", "fs9", "fs10", "fs11", "ft8", "ft9", "ft10", "ft11"]

/-- The sets of accesses that a fence orders: input, output, read, write. -/
def fenceSets : Array String := #[
  "0", "w", "r", "rw", "o", "ow", "or", "orw", "i", "iw", "ir", "irw", "io", "iow", "ior", "iorw"]

/-- The control and status registers that have a name. -/
def csrNames : List (Nat × String) := [
  (0x001, "fflags"), (0x002, "frm"), (0x003, "fcsr"),
  (0x100, "sstatus"), (0x104, "sie"), (0x105, "stvec"), (0x106, "scounteren"),
  (0x140, "sscratch"), (0x141, "sepc"), (0x142, "scause"), (0x143, "stval"), (0x144, "sip"),
  (0x180, "satp"),
  (0x300, "mstatus"), (0x301, "misa"), (0x302, "medeleg"), (0x303, "mideleg"), (0x304, "mie"),
  (0x305, "mtvec"), (0x306, "mcounteren"),
  (0x340, "mscratch"), (0x341, "mepc"), (0x342, "mcause"), (0x343, "mtval"), (0x344, "mip"),
  (0xB00, "mcycle"), (0xB02, "minstret"),
  (0xC00, "cycle"), (0xC01, "time"), (0xC02, "instret"),
  (0xF11, "mvendorid"), (0xF12, "marchid"), (0xF13, "mimpid"), (0xF14, "mhartid")]

/-! ## Fields -/

/-- The destination register. -/
def rd (w : UInt32) : Nat := bits w 11 7

/-- The minor opcode. -/
def funct3 (w : UInt32) : Nat := bits w 14 12

/-- The first source register. -/
def rs1 (w : UInt32) : Nat := bits w 19 15

/-- The second source register. -/
def rs2 (w : UInt32) : Nat := bits w 24 20

/-- The upper opcode bits of a register operation. -/
def funct7 (w : UInt32) : Nat := bits w 31 25

/-- The twelve-bit immediate of loads and register-immediate operations. -/
def immI (w : UInt32) : Int := signExtend 12 (bits w 31 20)

/-- The twelve-bit displacement of stores. -/
def immS (w : UInt32) : Int := signExtend 12 (bits w 31 25 <<< 5 + bits w 11 7)

/-- The offset of conditional branches. -/
def immB (w : UInt32) : Int :=
  signExtend 13 (bits w 31 31 <<< 12 + bits w 7 7 <<< 11 + bits w 30 25 <<< 5
    + bits w 11 8 * 2)

/-- The offset of `jal`. -/
def immJ (w : UInt32) : Int :=
  signExtend 21 (bits w 31 31 <<< 20 + bits w 19 12 <<< 12 + bits w 20 20 <<< 11
    + bits w 30 21 * 2)

/-! ## Operands -/

/-- An integer register. -/
def xreg (r : Nat) : Operand := .reg integerNames[r]?

/-- A floating-point register. -/
def freg (r : Nat) : Operand := .reg floatNames[r]?

/-- A base register with a twelve-bit displacement. -/
def based (base : Nat) (displacement : Int) (size : UInt8) : Operand :=
  .memory { base := integerNames[base]?, displacement, width := 12, size }

/-- A base register alone. -/
def unbased (base : Nat) (size : UInt8) : Operand :=
  .memory { base := integerNames[base]?, size }

/-- A control and status register, by name or else by number. -/
def csrOperand (num : Nat) : Operand :=
  match csrNames.lookup num with
  | some n => .named n
  | none => .hexImm num 12

/-! ## Control transfer -/

/-- `jal`, and `j` when the return address is dropped. -/
def jal (w : UInt32) (addr : UInt64) : Operation :=
  let target := moveBy addr (immJ w)
  if rd w = 0 then .withTarget "j" [] .jump target
  else if rd w = 1 then .withTarget "jal" [] .call target
  else .withTarget "jal" [xreg (rd w)] .call target

/-- `jalr` and its aliases `jr` and `ret`. -/
def jalr (w : UInt32) : Option Operation :=
  if funct3 w ≠ 0 then none
  else some <|
    if rd w = 0 ∧ rs1 w = 1 ∧ immI w = 0 then { mnemonic := "ret", flow := .ret }
    else if rd w = 0 ∧ immI w = 0 then
      { mnemonic := "jr", operands := [xreg (rs1 w)], flow := .indirect }
    else if rd w = 0 then
      { mnemonic := "jr", operands := [based (rs1 w) (immI w) 0], flow := .indirect }
    else if rd w = 1 ∧ immI w = 0 then
      { mnemonic := "jalr", operands := [xreg (rs1 w)], flow := .indirect }
    else
      { mnemonic := "jalr", operands := [xreg (rd w), based (rs1 w) (immI w) 0],
        flow := .indirect }

/-- A conditional branch, under its alias when one side is the zero register. -/
def branch (w : UInt32) (addr : UInt64) : Option Operation :=
  let a := xreg (rs1 w)
  let b := xreg (rs2 w)
  let comparing (m : String) (ops : List Operand) : Operation :=
    .withTarget m ops .branch (moveBy addr (immB w))
  match funct3 w with
  | 0 => some (if rs2 w = 0 then comparing "beqz" [a] else comparing "beq" [a, b])
  | 1 => some (if rs2 w = 0 then comparing "bnez" [a] else comparing "bne" [a, b])
  | 4 => some (if rs2 w = 0 then comparing "bltz" [a] else if rs1 w = 0 then comparing "bgtz" [b]
      else comparing "blt" [a, b])
  | 5 => some (if rs2 w = 0 then comparing "bgez" [a] else if rs1 w = 0 then comparing "blez" [b]
      else comparing "bge" [a, b])
  | 6 => some (comparing "bltu" [a, b])
  | 7 => some (comparing "bgeu" [a, b])
  | _ => none

/-! ## Loads and stores -/

/-- Integer loads, by minor opcode: the mnemonic and the bytes read. -/
def loads : Array (String × UInt8) := #[
  ("lb", 1), ("lh", 2), ("lw", 4), ("ld", 8), ("lbu", 1), ("lhu", 2), ("lwu", 4)]

/-- Integer stores, by minor opcode: the mnemonic and the bytes written. -/
def stores : Array (String × UInt8) := #[("sb", 1), ("sh", 2), ("sw", 4), ("sd", 8)]

/-- An integer load. -/
def load (w : UInt32) : Option Operation :=
  loads[funct3 w]?.map fun (m, size) =>
    { mnemonic := m, operands := [xreg (rd w), based (rs1 w) (immI w) size] }

/-- An integer store. -/
def store (w : UInt32) : Option Operation :=
  stores[funct3 w]?.map fun (m, size) =>
    { mnemonic := m, operands := [xreg (rs2 w), based (rs1 w) (immS w) size] }

/-- A floating-point load. -/
def floatLoad (w : UInt32) : Option Operation :=
  match funct3 w with
  | 2 => some { mnemonic := "flw", operands := [freg (rd w), based (rs1 w) (immI w) 4] }
  | 3 => some { mnemonic := "fld", operands := [freg (rd w), based (rs1 w) (immI w) 8] }
  | _ => none

/-- A floating-point store. -/
def floatStore (w : UInt32) : Option Operation :=
  match funct3 w with
  | 2 => some { mnemonic := "fsw", operands := [freg (rs2 w), based (rs1 w) (immS w) 4] }
  | 3 => some { mnemonic := "fsd", operands := [freg (rs2 w), based (rs1 w) (immS w) 8] }
  | _ => none

/-! ## Integer computation -/

/-- Two registers. -/
def unary (m : String) (w : UInt32) : Operation :=
  { mnemonic := m, operands := [xreg (rd w), xreg (rs1 w)] }

/-- The destination and the second source. -/
def unarySecond (m : String) (w : UInt32) : Operation :=
  { mnemonic := m, operands := [xreg (rd w), xreg (rs2 w)] }

/-- Three registers. -/
def binary (m : String) (w : UInt32) : Operation :=
  { mnemonic := m, operands := [xreg (rd w), xreg (rs1 w), xreg (rs2 w)] }

/-- Two registers and a signed immediate. -/
def withImm (m : String) (w : UInt32) : Operation :=
  { mnemonic := m, operands := [xreg (rd w), xreg (rs1 w), .signedImm (immI w) 12] }

/-- Two registers and a shift amount. -/
def withShift (m : String) (w : UInt32) (amount : Nat) (width : UInt8) : Operation :=
  { mnemonic := m, operands := [xreg (rd w), xreg (rs1 w), .decimalImm amount width] }

/-- A register-immediate operation on 64 bits. -/
def opImm (w : UInt32) : Option Operation :=
  let amount := bits w 25 20
  let funct6 := bits w 31 26
  match funct3 w with
  | 0 => some <|
    if rd w = 0 ∧ rs1 w = 0 ∧ immI w = 0 then { mnemonic := "nop" }
    else if rs1 w = 0 then { mnemonic := "li", operands := [xreg (rd w), .signedImm (immI w) 12] }
    else if immI w = 0 then unary "mv" w
    else withImm "addi" w
  | 1 => if funct6 = 0 then some (withShift "slli" w amount 6) else none
  | 2 => some (withImm "slti" w)
  | 3 => some (if immI w = 1 then unary "seqz" w else withImm "sltiu" w)
  | 4 => some (if immI w = -1 then unary "not" w else withImm "xori" w)
  | 5 =>
    if funct6 = 0 then some (withShift "srli" w amount 6)
    else if funct6 = 0x10 then some (withShift "srai" w amount 6)
    else none
  | 6 => some (withImm "ori" w)
  | 7 => some (withImm "andi" w)
  | _ => none

/-- A register-immediate operation on 32 bits. -/
def opImm32 (w : UInt32) : Option Operation :=
  match funct3 w with
  | 0 => some (if immI w = 0 then unary "sext.w" w else withImm "addiw" w)
  | 1 => if funct7 w = 0 then some (withShift "slliw" w (rs2 w) 5) else none
  | 5 =>
    if funct7 w = 0 then some (withShift "srliw" w (rs2 w) 5)
    else if funct7 w = 0x20 then some (withShift "sraiw" w (rs2 w) 5)
    else none
  | _ => none

/-- The register operations, by minor opcode. -/
def baseOps : Array String := #["add", "sll", "slt", "sltu", "xor", "srl", "or", "and"]

/-- The multiplications and divisions, by minor opcode. -/
def mulOps : Array String := #["mul", "mulh", "mulhsu", "mulhu", "div", "divu", "rem", "remu"]

/-- A register operation on 64 bits. -/
def op (w : UInt32) : Option Operation :=
  match funct7 w with
  | 0x00 =>
    if funct3 w = 3 ∧ rs1 w = 0 then some (unarySecond "snez" w)
    else baseOps[funct3 w]?.map (binary · w)
  | 0x20 =>
    if funct3 w = 0 ∧ rs1 w = 0 then some (unarySecond "neg" w)
    else if funct3 w = 0 then some (binary "sub" w)
    else if funct3 w = 5 then some (binary "sra" w)
    else none
  | 0x01 => mulOps[funct3 w]?.map (binary · w)
  | _ => none

/-- A register operation on 32 bits. -/
def op32 (w : UInt32) : Option Operation :=
  match funct7 w, funct3 w with
  | 0x00, 0 => some (binary "addw" w)
  | 0x00, 1 => some (binary "sllw" w)
  | 0x00, 5 => some (binary "srlw" w)
  | 0x20, 0 => some (if rs1 w = 0 then unarySecond "negw" w else binary "subw" w)
  | 0x20, 5 => some (binary "sraw" w)
  | 0x01, 0 => some (binary "mulw" w)
  | 0x01, 4 => some (binary "divw" w)
  | 0x01, 5 => some (binary "divuw" w)
  | 0x01, 6 => some (binary "remw" w)
  | 0x01, 7 => some (binary "remuw" w)
  | _, _ => none

/-! ## Atomics -/

/-- The atomic operations, by their upper five opcode bits. -/
def atomicOps : List (Nat × String) := [
  (0x02, "lr"), (0x03, "sc"), (0x01, "amoswap"), (0x00, "amoadd"), (0x04, "amoxor"),
  (0x0C, "amoand"), (0x08, "amoor"), (0x10, "amomin"), (0x14, "amomax"), (0x18, "amominu"),
  (0x1C, "amomaxu")]

/-- The ending of an atomic mnemonic that states its ordering. -/
def ordering (acquire release : Bool) : String :=
  match acquire, release with
  | true, true => ".aqrl"
  | true, false => ".aq"
  | false, true => ".rl"
  | false, false => ""

/-- An atomic operation. -/
def atomic (w : UInt32) : Option Operation := do
  let (ending, size) ← match funct3 w with
    | 2 => some (".w", (4 : UInt8))
    | 3 => some (".d", 8)
    | _ => none
  let stem ← atomicOps.lookup (bits w 31 27)
  let mnemonic := stem ++ ending ++ ordering (bit w 26) (bit w 25)
  if bits w 31 27 = 0x02 then
    if rs2 w = 0 then some { mnemonic, operands := [xreg (rd w), unbased (rs1 w) size] } else none
  else some { mnemonic, operands := [xreg (rd w), xreg (rs2 w), unbased (rs1 w) size] }

/-! ## System instructions and fences -/

/-- Environment calls, trap returns and the address-translation fence. -/
def privileged (w : UInt32) : Option Operation :=
  if funct7 w = 0x09 ∧ rd w = 0 then
    some { mnemonic := "sfence.vma", operands := [xreg (rs1 w), xreg (rs2 w)] }
  else if rd w ≠ 0 ∨ rs1 w ≠ 0 then none
  else match bits w 31 20 with
    | 0x000 => some { mnemonic := "ecall" }
    | 0x001 => some { mnemonic := "ebreak" }
    | 0x102 => some { mnemonic := "sret", flow := .ret }
    | 0x302 => some { mnemonic := "mret", flow := .ret }
    | 0x105 => some { mnemonic := "wfi" }
    | _ => none

/-- The stems of the accesses to control and status registers: read, short and full form. -/
def csrStems : Array (String × String) := #[("csrw", "csrrw"), ("csrs", "csrrs"), ("csrc", "csrrc")]

/-- An access to a control and status register. -/
def csrAccess (w : UInt32) : Option Operation := do
  let (short, full) ← csrStems[funct3 w % 4 - 1]?
  let csr := csrOperand (bits w 31 20)
  let imm := 5 ≤ funct3 w
  let source := if imm then Operand.decimalImm (rs1 w) 5 else xreg (rs1 w)
  let ending := if imm then "i" else ""
  if funct3 w = 2 ∧ rs1 w = 0 then some { mnemonic := "csrr", operands := [xreg (rd w), csr] }
  else if rd w = 0 then some { mnemonic := short ++ ending, operands := [csr, source] }
  else some { mnemonic := full ++ ending, operands := [xreg (rd w), csr, source] }

/-- A system instruction. -/
def system (w : UInt32) : Option Operation :=
  match funct3 w with
  | 0 => privileged w
  | 4 => none
  | _ => csrAccess w

/-- A fence; without operands when it orders everything. -/
def fence (w : UInt32) : Option Operation :=
  let before := bits w 27 24
  let after := bits w 23 20
  match funct3 w with
  | 0 => some <|
    if before = 0xF ∧ after = 0xF then { mnemonic := "fence" }
    else if bits w 31 28 = 0x8 ∧ before = 0x3 ∧ after = 0x3 then { mnemonic := "fence.tso" }
    else { mnemonic := "fence", operands := [.reg fenceSets[before]?, .reg fenceSets[after]?] }
  | 1 => some { mnemonic := "fence.i" }
  | _ => none

/-! ## The decoder -/

/-- `lui` and `auipc`: a register and the upper twenty bits. -/
def upper (m : String) (w : UInt32) : Operation :=
  { mnemonic := m, operands := [xreg (rd w), .hexImm (bits w 31 12) 20] }

/-- The operation that a word encodes at an address. -/
def decode (w : UInt32) (addr : UInt64) : Option Operation :=
  match bits w 6 0 with
  | 0x37 => some (upper "lui" w)
  | 0x17 => some (upper "auipc" w)
  | 0x6F => some (jal w addr)
  | 0x67 => jalr w
  | 0x63 => branch w addr
  | 0x03 => load w
  | 0x23 => store w
  | 0x07 => floatLoad w
  | 0x27 => floatStore w
  | 0x13 => opImm w
  | 0x1B => opImm32 w
  | 0x33 => op w
  | 0x3B => op32 w
  | 0x2F => atomic w
  | 0x0F => fence w
  | 0x73 => system w
  | _ => none

end Disassembler.RiscV
