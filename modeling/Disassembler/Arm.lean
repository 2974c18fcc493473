import Disassembler.Word
import Disassembler.Instruction

/-!
# ARM

The 32-bit integer set: data processing, multiplication, loads and stores of one register, two or
many, branches, status registers, exclusives and hints. A mnemonic ends in its condition, after
the `s` of the operations that set flags. Coprocessor and vector encodings are invalid. Addresses
have 32 bits, and the program counter reads as eight bytes past the instruction.
-/

namespace Disassembler.Arm

/-! ## Names -/

/-- The registers. -/
def registerNames : Array String := #[
  "r0", "r1", "r2", "r3", "r4", "r5", "r6", "r7", "r8", "r9", "r10", "r11", "r12", "sp", "lr", "pc"]

/-- The conditions; the last two are written as nothing. -/
def conditionNames : Array String := #[
  "eq", "ne", "cs", "cc", "mi", "pl", "vs", "vc", "hi", "ls", "ge", "lt", "gt", "le", "", ""]

/-- The shifts. -/
def shiftNames : Array String := #["lsl", "lsr", "asr", "ror"]

/-- The data-processing operations. -/
def dataNames : Array String := #[
  "and", "eor", "sub", "rsb", "add", "adc", "sbc", "rsc",
  "tst", "teq", "cmp", "cmn", "orr", "mov", "bic", "mvn"]

/-- The fields of a status register that a write selects. -/
def statusFields : Array String := #[
  "", "_c", "_x", "_xc", "_s", "_sc", "_sx", "_sxc", "_f", "_fc", "_fx", "_fxc", "_fs", "_fsc",
  "_fsx", "_fsxc"]

/-- The stack pointer. -/
def sp : Nat := 13

/-- The link register. -/
def lr : Nat := 14

/-- The program counter. -/
def pc : Nat := 15

/-! ## Fields -/

/-- The condition. -/
def cond (w : UInt32) : Nat := bits w 31 28

/-- The condition under which an instruction is always executed. -/
def always : Nat := 14

/-- The register in bits 19 to 16: a base or first source. -/
def rn (w : UInt32) : Nat := bits w 19 16

/-- The register in bits 15 to 12: the destination or the one transferred. -/
def rd (w : UInt32) : Nat := bits w 15 12

/-- The register in bits 11 to 8: a shift amount or factor. -/
def rs (w : UInt32) : Nat := bits w 11 8

/-- The register in bits 3 to 0: the second source. -/
def rm (w : UInt32) : Nat := bits w 3 0

/-! ## Operands -/

/-- A register. -/
def reg (r : Nat) : Operand := .reg registerNames[r]?

/-- A mnemonic with its condition. -/
def conditional (stem : String) (w : UInt32) : String :=
  stem ++ conditionNames[cond w]?.getD ""

/-- A mnemonic that may set flags, with its condition. -/
def flagSetting (stem : String) (w : UInt32) : String :=
  conditional (if bit w 20 then stem ++ "s" else stem) w

/-- A conditional operation that falls through. -/
def plain (stem : String) (w : UInt32) (operands : List Operand) : Option Operation :=
  some { mnemonic := conditional stem w, operands }

/-- The shift of a register operand: by a register, by an amount, or none. A zero amount means
thirty-two for right shifts, and `rrx` for a rotation. -/
def fixedShift (w : UInt32) : Option Shift :=
  let kind := bits w 6 5
  let amount := bits w 11 7
  if amount ≠ 0 then
    some { op := shiftNames[kind]?.getD "", amount := UInt8.ofNat amount }
  else if kind = 0 then none
  else if kind = 3 then some { op := "rrx" }
  else some { op := shiftNames[kind]?.getD "", amount := 32 }

/-- The second source register with its shift; a shift by a register has bit 7 clear. -/
def shiftedRegister (w : UInt32) : Option RegisterOperand :=
  let name := registerNames[rm w]?
  if bit w 4 then
    if bit w 7 then none
    else some { name, shift := some { op := shiftNames[bits w 6 5]?.getD ""
                                      register := registerNames[rs w]? } }
  else some { name, shift := fixedShift w }

/-- Eight bits rotated right by twice the rotation field, in 32 bits. -/
def rotatedImmediate (w : UInt32) : Nat :=
  let turn := 2 * bits w 11 8
  bits w 7 0 >>> turn + bits w 7 0 <<< (32 - turn) % 1 <<< 32

/-! ## Branches -/

/-- An address relative to the program counter. -/
def relativeTarget (addr : UInt64) (offset : Int) : UInt64 := low32 (moveBy (addr + 8) offset)

/-- The offset of a branch, in bytes. -/
def branchOffset (w : UInt32) : Int := 4 * signExtend 24 (bits w 23 0)

/-- `b` and `bl`. -/
def branch (w : UInt32) (addr : UInt64) : Operation :=
  let target := relativeTarget addr (branchOffset w)
  if bit w 24 then .withTarget (conditional "bl" w) [] .call target
  else if cond w = always then .withTarget (conditional "b" w) [] .jump target
  else .withTarget (conditional "b" w) [] .branch target

/-! ## The unconditional space -/

/-- Encodings whose condition field is all ones: `blx`, preloads and barriers. -/
def unconditional (w : UInt32) (addr : UInt64) : Option Operation :=
  if bits w 31 25 = 0x7D then
    some (.withTarget "blx" [] .call
      (relativeTarget addr (branchOffset w + 2 * bits w 24 24)))
  else if bits w 31 24 = 0xF5 ∧ bits w 22 20 = 5 ∧ bits w 15 12 = 0xF then
    let offset : Int := bits w 11 0
    some { mnemonic := "pld"
           operands := [.memory { base := registerNames[rn w]?, width := 12
                                  displacement := if bit w 23 then offset else -offset }] }
  else if w = 0xF57FF01F then some { mnemonic := "clrex" }
  else match bits w 31 4 with
    | 0xF57FF04 => some { mnemonic := "dsb" }
    | 0xF57FF05 => some { mnemonic := "dmb" }
    | 0xF57FF06 => some { mnemonic := "isb" }
    | _ => none

/-! ## Miscellaneous -/

/-- The sixteen-bit number of `bkpt` and `udf`, split around a field. -/
def splitImmediate (w : UInt32) : Nat := bits w 19 8 <<< 4 + bits w 3 0

/-- A base register alone, for the exclusive accesses. -/
def exclusive (w : UInt32) : Operand := .memory { base := registerNames[rn w]?, size := 4 }

/-- Branches to a register, status registers, leading zeros, exclusives and breakpoints. -/
def miscellaneous (w : UInt32) : Option Operation :=
  if bits w 27 4 = 0x12FFF1 then
    some { mnemonic := conditional "bx" w, operands := [reg (rm w)]
           flow := if rm w = lr then .ret else .indirect }
  else if bits w 27 4 = 0x12FFF3 then
    some { mnemonic := conditional "blx" w, operands := [reg (rm w)], flow := .indirect }
  else if bits w 27 16 = 0x16F ∧ bits w 11 4 = 0xF1 then
    plain "clz" w [reg (rd w), reg (rm w)]
  else if bits w 27 23 = 2 ∧ bits w 21 16 = 0x0F ∧ bits w 11 0 = 0 then
    plain "mrs" w [reg (rd w), .named (if bit w 22 then "spsr" else "apsr")]
  else if bits w 27 23 = 2 ∧ bits w 21 20 = 2 ∧ bits w 15 4 = 0xF00 then
    let status := if bit w 22 then "spsr" else "cpsr"
    plain "msr" w [.reg (statusFields[bits w 19 16]?.map (status ++ ·)), reg (rm w)]
  else if bits w 31 20 = 0xE12 ∧ bits w 7 4 = 7 then
    some { mnemonic := "bkpt", operands := [.hexImm (splitImmediate w) 16] }
  else if bits w 27 20 = 0x19 ∧ bits w 11 0 = 0xF9F then
    plain "ldrex" w [reg (rd w), exclusive w]
  else if bits w 27 20 = 0x18 ∧ bits w 11 4 = 0xF9 then
    plain "strex" w [reg (rd w), reg (rm w), exclusive w]
  else none

/-! ## Multiplication -/

/-- The long multiplications. -/
def longNames : Array String := #["umull", "umlal", "smull", "smlal"]

/-- A multiplication; its destination is in bits 19 to 16. -/
def multiply (w : UInt32) : Option Operation :=
  if bits w 27 22 = 0 then
    some <|
      if bit w 21 then
        { mnemonic := flagSetting "mla" w
          operands := [reg (rn w), reg (rm w), reg (rs w), reg (rd w)] }
      else
        { mnemonic := flagSetting "mul" w, operands := [reg (rn w), reg (rm w), reg (rs w)] }
  else if bits w 27 20 = 0x06 then
    plain "mls" w [reg (rn w), reg (rm w), reg (rs w), reg (rd w)]
  else if bits w 27 23 = 1 then
    longNames[bits w 22 21]?.map fun m =>
      { mnemonic := flagSetting m w
        operands := [reg (rd w), reg (rn w), reg (rm w), reg (rs w)] }
  else none

/-! ## Loads and stores -/

/-- When the offset is added: bit 24 says before, and then bit 21 says that the base changes. -/
def indexMode (w : UInt32) : IndexMode :=
  if !bit w 24 then .postIndexed else if bit w 21 then .preIndexed else .offset

/-- The base displaced by a number that bit 23 adds and that is otherwise subtracted. Relative to
the program counter and without a write-back, the effective address is known. -/
def displaced (w : UInt32) (addr : UInt64) (offset : Nat) (width size : UInt8) : Operand :=
  let displacement : Int := if bit w 23 then offset else -offset
  let mode := indexMode w
  .memory { base := registerNames[rn w]?, displacement, width, size, mode
            pcTarget := if rn w = pc ∧ mode = .offset then
              some (relativeTarget addr displacement) else none }

/-- The base and an index register that bit 23 adds and that is otherwise subtracted. -/
def indexed (w : UInt32) (shift : Option Shift) (size : UInt8) : Operand :=
  .memory { base := registerNames[rn w]?, index := registerNames[rm w]?, shift, size
            negated := !bit w 23, mode := indexMode w }

/-- A load or store of a halfword, of a signed byte, or of two registers. -/
structure Transfer where
  stem : String
  size : UInt8
  /-- Are two registers transferred, the first of them even? -/
  pair : Bool := false

/-- The halfword, signed and double transfers, by the load bit and the kind field. -/
def extraTransfer (load : Bool) (kind : Nat) : Option Transfer :=
  match load, kind with
  | true, 1 => some { stem := "ldrh", size := 2 }
  | true, 2 => some { stem := "ldrsb", size := 1 }
  | true, 3 => some { stem := "ldrsh", size := 2 }
  | false, 1 => some { stem := "strh", size := 2 }
  | false, 2 => some { stem := "ldrd", size := 8, pair := true }
  | false, 3 => some { stem := "strd", size := 8, pair := true }
  | _, _ => none

/-- A halfword, signed or double transfer. -/
def extraLoadStore (w : UInt32) (addr : UInt64) : Option Operation := do
  let t ← extraTransfer (bit w 20) (bits w 6 5)
  let place :=
    if bit w 22 then displaced w addr (bits w 11 8 <<< 4 + bits w 3 0) 8 t.size
    else indexed w none t.size
  let mnemonic := conditional t.stem w
  if t.pair then
    if rd w % 2 = 1 then none
    else some { mnemonic, operands := [reg (rd w), reg (rd w + 1), place] }
  else
    some { mnemonic, operands := [reg (rd w), place]
           flow := if bit w 20 ∧ rd w = pc then .indirect else .next }

/-- A register in braces by itself. -/
def onlyRegister (r : Nat) : Operand :=
  .register { name := registerNames[r]?, opensList := true, closesList := true }

/-- The stem of a word or byte transfer; `t` marks an access without privilege. -/
def transferStem (w : UInt32) : String :=
  (if bit w 20 then "ldr" else "str") ++ (if bit w 22 then "b" else "")
    ++ (if !bit w 24 && bit w 21 then "t" else "")

/-- A word or byte transfer; `push` and `pop` of one register when the stack pointer moves by the
size of a word. -/
def loadStore (w : UInt32) (addr : UInt64) : Option Operation :=
  let load := bit w 20
  let size : UInt8 := if bit w 22 then 1 else 4
  let transfer (place : Operand) : Option Operation :=
    some { mnemonic := conditional (transferStem w) w, operands := [reg (rd w), place]
           flow := if load ∧ rd w = pc then .indirect else .next }
  if bit w 25 then
    if bit w 4 then none else transfer (indexed w (fixedShift w) size)
  else if rn w = sp ∧ bits w 24 20 = 0b01001 ∧ bits w 11 0 = 4 then
    some { mnemonic := conditional "pop" w, operands := [onlyRegister (rd w)]
           flow := if rd w = pc then .ret else .next }
  else if rn w = sp ∧ bits w 24 20 = 0b10010 ∧ bits w 11 0 = 4 then
    plain "push" w [onlyRegister (rd w)]
  else transfer (displaced w addr (bits w 11 0) 12 size)

/-- The registers of a list field, in ascending order. -/
def listed (w : UInt32) : List Nat := (List.range 16).filter (bit w ·)

/-- The registers of a list field as operands in braces. -/
def registerList (w : UInt32) : List Operand :=
  let rs := listed w
  rs.map fun r =>
    .register { name := registerNames[r]?, opensList := rs.head? = some r
                closesList := rs.getLast? = some r }

/-- The endings of a transfer of many registers, by its direction and order. -/
def blockEndings : Array String := #["da", "", "db", "ib"]

/-- A transfer of many registers; `push` and `pop` when the stack pointer is written back. -/
def block (w : UInt32) : Option Operation :=
  let load := bit w 20
  let list := registerList w
  let leaves := load && bit w 15
  let stack := rn w = sp ∧ bits w 22 21 = 1
  if listed w = [] then none
  else if stack ∧ load ∧ bits w 24 23 = 1 then
    some { mnemonic := conditional "pop" w, operands := list
           flow := if leaves then .ret else .next }
  else if stack ∧ !load ∧ bits w 24 23 = 2 then plain "push" w list
  else
    blockEndings[bits w 24 23]?.map fun ending =>
      { mnemonic := conditional ((if load then "ldm" else "stm") ++ ending) w
        operands := .register { name := registerNames[rn w]?, writeback := bit w 21 } :: list
        flow := if !leaves then .next else if rn w = sp then .ret else .indirect }

/-! ## Data processing -/

/-- The second source: a rotated immediate or a shifted register. -/
def source (w : UInt32) : Option Operand :=
  if bit w 25 then some (.hexImm (rotatedImmediate w) 32)
  else (shiftedRegister w).map .register

/-- A move of a shifted register, written as the shift. -/
def shiftMove (w : UInt32) (s : Shift) : Operation :=
  { mnemonic := flagSetting s.op w
    operands := [reg (rd w), reg (rm w)] ++
      match s.register with
      | some r => [.named r]
      | none => if s.amount = 0 then [] else [.decimalImm s.amount.toNat 5] }

/-- A data-processing operation. Writing the program counter leaves the code at hand, and a plain
move of the link register there returns. -/
def dataProcessing (w : UInt32) : Option Operation := do
  let kind := bits w 24 21
  let stem ← dataNames[kind]?
  let src ← source w
  if 8 ≤ kind ∧ kind ≤ 11 then plain stem w [reg (rn w), src]
  else
    let leaves : Flow := if rd w = pc then .indirect else .next
    if kind = 13 then
      match src with
      | .register { shift := some s, .. } => some { shiftMove w s with flow := leaves }
      | _ =>
        some { mnemonic := flagSetting stem w, operands := [reg (rd w), src]
               flow := if rd w = pc ∧ !bit w 25 ∧ rm w = lr then .ret else leaves }
    else if kind = 15 then
      some { mnemonic := flagSetting stem w, operands := [reg (rd w), src], flow := leaves }
    else
      some { mnemonic := flagSetting stem w, operands := [reg (rd w), reg (rn w), src]
             flow := leaves }

/-! ## The decoder -/

/-- The hints. -/
def hintNames : Array String := #["nop", "yield", "wfe", "wfi", "sev"]

/-- Register forms: data processing, multiplication, extra transfers and miscellany. -/
def registerForms (w : UInt32) (addr : UInt64) : Option Operation :=
  if bit w 7 ∧ bit w 4 then
    if bits w 6 5 = 0 then (multiply w).or (miscellaneous w) else extraLoadStore w addr
  else if bits w 24 23 = 2 ∧ !bit w 20 then miscellaneous w
  else dataProcessing w

/-- Immediate forms: sixteen-bit moves, hints and data processing. -/
def immediateForms (w : UInt32) : Option Operation :=
  if bits w 27 20 = 0x30 ∨ bits w 27 20 = 0x34 then
    plain (if bit w 22 then "movt" else "movw") w
      [reg (rd w), .hexImm (bits w 19 16 <<< 12 + bits w 11 0 : Nat) 16]
  else if bits w 27 8 = 0x320F0 then hintNames[bits w 7 0]?.bind (plain · w [])
  else if bits w 24 23 = 2 ∧ !bit w 20 then none
  else dataProcessing w

/-- The operation that a word encodes at an address. -/
def decode (w : UInt32) (addr : UInt64) : Option Operation :=
  if cond w = 15 then unconditional w addr
  else match bits w 27 25 with
    | 0 => registerForms w addr
    | 1 => immediateForms w
    | 2 => loadStore w addr
    | 3 =>
      if bits w 27 20 = 0x7F ∧ bits w 7 4 = 0xF then
        some { mnemonic := "udf", operands := [.hexImm (splitImmediate w) 16] }
      else loadStore w addr
    | 4 => block w
    | 5 => some (branch w addr)
    | 7 => if bit w 24 then plain "svc" w [.hexImm (bits w 23 0) 24] else none
    | _ => none

end Disassembler.Arm
