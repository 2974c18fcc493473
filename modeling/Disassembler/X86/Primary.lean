import Disassembler.X86.Operand

/-!
# The one-byte opcodes of x86-64

Every opcode of one byte that is defined in 64-bit mode, apart from the floating-point escapes.
The low bits of many opcodes say the operand width and the direction, so most rows of the map are
one rule. An opcode that names a group is told apart by the digit in its ModRM byte.
-/

namespace Disassembler.X86

/-! ## Arithmetic rows and groups -/

/-- The arithmetic operations, in the order of their rows and of their digits. -/
def arithmeticNames : Array String := #["add", "or", "adc", "sbb", "and", "sub", "xor", "cmp"]

/-- The rotations and shifts, by digit. -/
def shiftNames : Array String := #["rol", "ror", "rcl", "rcr", "shl", "shr", "sal", "sar"]

/-- The operations with one operand, by digit. -/
def unaryNames : Array String := #["test", "test", "not", "neg", "mul", "imul", "div", "idiv"]

/-- The argument width that the lowest bit of an opcode says. -/
def opcodeWidth (opcode : Nat) : Width := if opcode % 2 = 0 then .byte else .full

/-- The six forms of an arithmetic row. -/
def arithmeticForms : Array (List Argument) := #[
  [.place .byte, .register .byte], [.place .full, .register .full],
  [.register .byte, .place .byte], [.register .full, .place .full],
  [.accumulator .byte, .imm8], [.accumulator .full, .immUpTo32]]

/-- An opcode below `40`: eight rows of six forms. -/
def arithmetic (p : Prefixes) (opcode : Nat) : ByteReader Operation := do
  let args ← .ofOption arithmeticForms[opcode % 8]?
  let name ← .ofOption arithmeticNames[opcode / 8]?
  operation p (p.width false) opcode name args

/-- The immediate of an operation on a place of the opcode's width. -/
def opcodeImm (opcode : Nat) : Argument := if opcode % 2 = 0 then .imm8 else .immUpTo32

/-- Arithmetic with an immediate. -/
def immediateGroup (p : Prefixes) (opcode : Nat) (imm : Argument) : ByteReader Operation := do
  let m ← readModRM p
  let name ← .ofOption arithmeticNames[m.digit]?
  withModRM p (p.width false) opcode m name [.place (opcodeWidth opcode), imm]

/-- Rotations and shifts by an amount. -/
def shiftGroup (p : Prefixes) (opcode : Nat) (amount : Argument) : ByteReader Operation := do
  let m ← readModRM p
  let name ← .ofOption shiftNames[m.digit]?
  withModRM p (p.width false) opcode m name [.place (opcodeWidth opcode), amount]

/-- Tests against an immediate, negations, multiplications and divisions. -/
def unaryGroup (p : Prefixes) (opcode : Nat) : ByteReader Operation := do
  let m ← readModRM p
  let name ← .ofOption unaryNames[m.digit]?
  withModRM p (p.width false) opcode m name
    (.place (opcodeWidth opcode) :: if m.digit < 2 then [opcodeImm opcode] else [])

/-- A move of an immediate. -/
def moveGroup (p : Prefixes) (opcode : Nat) : ByteReader Operation := do
  let m ← readModRM p
  ByteReader.guard (m.digit = 0)
  withModRM p (p.width false) opcode m "mov" [.place (opcodeWidth opcode), opcodeImm opcode]

/-- `pop` into a place. -/
def popGroup (p : Prefixes) (opcode : Nat) : ByteReader Operation := do
  let m ← readModRM p
  ByteReader.guard (m.digit = 0)
  withModRM p (p.width true) opcode m "pop" [.place .full]

/-- Increment and decrement of a byte. -/
def byteStepGroup (p : Prefixes) (opcode : Nat) : ByteReader Operation := do
  let m ← readModRM p
  match m.digit with
  | 0 => withModRM p 8 opcode m "inc" [.place .byte]
  | 1 => withModRM p 8 opcode m "dec" [.place .byte]
  | _ => .undefined

/-- The bytes of a far pointer in memory. -/
def farPointerSize (p : Prefixes) : Nat := if p.rexW then 10 else if p.operandSize then 4 else 6

/-- A jump or call through a far pointer in memory. -/
def farTransfer (p : Prefixes) (m : ModRM) (mnemonic : String) : ByteReader Operation := do
  let place ← .ofOption m.memory?
  return { mnemonic, operands := [.memory { place with size := UInt8.ofNat (farPointerSize p) }]
           flow := .indirect }

/-- Increment, decrement, and calls, jumps and pushes through a place. -/
def placeGroup (p : Prefixes) (opcode : Nat) : ByteReader Operation := do
  let m ← readModRM p
  match m.digit with
  | 0 => withModRM p (p.width false) opcode m "inc" [.place .full]
  | 1 => withModRM p (p.width false) opcode m "dec" [.place .full]
  | 2 => withModRM p (p.width true) opcode m "call" [.place .full] .indirect
  | 3 => farTransfer p m "call"
  | 4 => withModRM p (p.width true) opcode m "jmp" [.place .full] .indirect
  | 5 => farTransfer p m "jmp"
  | 6 => withModRM p (p.width true) opcode m "push" [.place .full]
  | _ => .undefined

/-! ## Names that depend on sizes and prefixes -/

/-- A name by operand width: 16, 32 or 64 bits. -/
def byWidth (bits : Nat) (word dword qword : String) : String :=
  if bits = 16 then word else if bits = 64 then qword else dword

/-- A string instruction: its name ends in the letter of its operand width, and a repetition
stands before it. Comparisons say which outcome goes on. -/
def stringOperation (p : Prefixes) (opcode : Nat) (stem : String) (compares : Bool) :
    ByteReader Operation :=
  let size := if opcode % 2 = 0 then "b" else byWidth (p.width false) "w" "d" "q"
  let repeats :=
    match p.repetition, compares with
    | none, _ => ""
    | some _, false => "rep "
    | some .whileEqual, true => "repe "
    | some .whileNotEqual, true => "repne "
  bare (repeats ++ stem ++ size)

/-- Opcode `90`: an exchange of the accumulator with `r8`, a pause, or nothing. -/
def exchangeOrNothing (p : Prefixes) : ByteReader Operation :=
  if p.rexB then
    return { mnemonic := "xchg"
             operands := [.reg (p.registerName (p.width false) 8),
               .reg (p.registerName (p.width false) 0)] }
  else bare (if p.repetition = some .whileEqual then "pause" else "nop")

/-! ## The map -/

/-- Opcodes from `60` to `6F`. -/
def rows6 (p : Prefixes) (opcode : Nat) : ByteReader Operation :=
  let op := operation p (p.width false) opcode
  let stack := operation p (p.width true) opcode
  match opcode with
  | 0x63 => operation p p.wideOr32 opcode "movsxd" [.register .full, .place .dword]
  | 0x68 => stack "push" [.immUpTo32]
  | 0x69 => op "imul" [.register .full, .place .full, .immUpTo32]
  | 0x6A => stack "push" [.imm8Signed]
  | 0x6B => op "imul" [.register .full, .place .full, .imm8Signed]
  | 0x6C | 0x6D => stringOperation p opcode "ins" false
  | 0x6E | 0x6F => stringOperation p opcode "outs" false
  | _ => .undefined

/-- Opcodes from `80` to `8F`. -/
def rows8 (p : Prefixes) (opcode : Nat) : ByteReader Operation :=
  let op := operation p (p.width false) opcode
  let w := opcodeWidth opcode
  match opcode with
  | 0x80 => immediateGroup p opcode .imm8
  | 0x81 => immediateGroup p opcode .immUpTo32
  | 0x83 => immediateGroup p opcode .imm8Signed
  | 0x84 | 0x85 => op "test" [.place w, .register w]
  | 0x86 | 0x87 => op "xchg" [.place w, .register w]
  | 0x88 | 0x89 => op "mov" [.place w, .register w]
  | 0x8A | 0x8B => op "mov" [.register w, .place w]
  | 0x8C => op "mov" [.place .full, .segment]
  | 0x8D => op "lea" [.register .full, .address]
  | 0x8E => op "mov" [.segment, .place .word]
  | 0x8F => popGroup p opcode
  | _ => .undefined

/-- Opcodes from `90` to `9F`. -/
def rows9 (p : Prefixes) (opcode : Nat) : ByteReader Operation :=
  match opcode with
  | 0x90 => exchangeOrNothing p
  | 0x98 => bare (byWidth (p.width false) "cbw" "cwde" "cdqe")
  | 0x99 => bare (byWidth (p.width false) "cwd" "cdq" "cqo")
  | 0x9A => .undefined
  | 0x9B => bare "fwait"
  | 0x9C => bare (if p.width true = 16 then "pushf" else "pushfq")
  | 0x9D => bare (if p.width true = 16 then "popf" else "popfq")
  | 0x9E => bare "sahf"
  | 0x9F => bare "lahf"
  | _ => operation p (p.width false) opcode "xchg" [.opcodeRegister .full, .accumulator .full]

/-- Opcodes from `A0` to `AF`. -/
def rowsA (p : Prefixes) (opcode : Nat) : ByteReader Operation :=
  let op := operation p (p.width false) opcode
  let w := opcodeWidth opcode
  match opcode with
  | 0xA0 | 0xA1 => op "mov" [.accumulator w, .absolute w]
  | 0xA2 | 0xA3 => op "mov" [.absolute w, .accumulator w]
  | 0xA4 | 0xA5 => stringOperation p opcode "movs" false
  | 0xA6 | 0xA7 => stringOperation p opcode "cmps" true
  | 0xA8 | 0xA9 => op "test" [.accumulator w, opcodeImm opcode]
  | 0xAA | 0xAB => stringOperation p opcode "stos" false
  | 0xAC | 0xAD => stringOperation p opcode "lods" false
  | 0xAE | 0xAF => stringOperation p opcode "scas" true
  | _ => .undefined

/-- Opcodes from `C0` to `CF`. -/
def rowsC (p : Prefixes) (opcode : Nat) : ByteReader Operation :=
  let op := operation p (p.width false) opcode
  match opcode with
  | 0xC0 | 0xC1 => shiftGroup p opcode .imm8
  | 0xC2 => operation p (p.width false) opcode "ret" [.imm16] .ret
  | 0xC3 => bare "ret" .ret
  | 0xC6 | 0xC7 => moveGroup p opcode
  | 0xC8 => op "enter" [.imm16, .imm8]
  | 0xC9 => bare "leave"
  | 0xCA => operation p (p.width false) opcode "retf" [.imm16] .ret
  | 0xCB => bare "retf" .ret
  | 0xCC => bare "int3"
  | 0xCD => op "int" [.imm8]
  | 0xCF => bare (byWidth (p.width false) "iret" "iretd" "iretq") .ret
  | _ => .undefined

/-- Opcodes from `D0` to `D7`. -/
def rowsD (p : Prefixes) (opcode : Nat) : ByteReader Operation :=
  match opcode with
  | 0xD0 | 0xD1 => shiftGroup p opcode .one
  | 0xD2 | 0xD3 => shiftGroup p opcode (.named "cl")
  | 0xD7 => bare "xlat"
  | _ => .undefined

/-- Opcodes from `E0` to `EF`. -/
def rowsE (p : Prefixes) (opcode : Nat) : ByteReader Operation :=
  let op := operation p (p.width false) opcode
  let accumulator := Argument.accumulator (opcodeWidth opcode)
  match opcode with
  | 0xE0 => nearJump "loopne" 1 .branch
  | 0xE1 => nearJump "loope" 1 .branch
  | 0xE2 => nearJump "loop" 1 .branch
  | 0xE3 => nearJump "jrcxz" 1 .branch
  | 0xE4 | 0xE5 => op "in" [accumulator, .imm8]
  | 0xE6 | 0xE7 => op "out" [.imm8, accumulator]
  | 0xE8 => nearJump "call" 4 .call
  | 0xE9 => nearJump "jmp" 4 .jump
  | 0xEB => nearJump "jmp" 1 .jump
  | 0xEC | 0xED => op "in" [accumulator, .named "dx"]
  | 0xEE | 0xEF => op "out" [.named "dx", accumulator]
  | _ => .undefined

/-- Opcodes from `F0` to `FF`. -/
def rowsF (p : Prefixes) (opcode : Nat) : ByteReader Operation :=
  match opcode with
  | 0xF1 => bare "int1"
  | 0xF4 => bare "hlt"
  | 0xF5 => bare "cmc"
  | 0xF6 | 0xF7 => unaryGroup p opcode
  | 0xF8 => bare "clc"
  | 0xF9 => bare "stc"
  | 0xFA => bare "cli"
  | 0xFB => bare "sti"
  | 0xFC => bare "cld"
  | 0xFD => bare "std"
  | 0xFE => byteStepGroup p opcode
  | 0xFF => placeGroup p opcode
  | _ => .undefined

/-- The operation of a one-byte opcode. -/
def primary (p : Prefixes) (opcode : Nat) : ByteReader Operation :=
  match opcode / 16 with
  | 0x0 | 0x1 | 0x2 | 0x3 => arithmetic p opcode
  | 0x5 =>
    operation p (p.width true) opcode (if opcode < 0x58 then "push" else "pop")
      [.opcodeRegister .full]
  | 0x6 => rows6 p opcode
  | 0x7 => do
    let condition ← .ofOption conditionNames[opcode % 16]?
    nearJump ("j" ++ condition) 1 .branch
  | 0x8 => rows8 p opcode
  | 0x9 => rows9 p opcode
  | 0xA => rowsA p opcode
  | 0xB =>
    if opcode < 0xB8 then
      operation p (p.width false) opcode "mov" [.opcodeRegister .byte, .imm8]
    else operation p (p.width false) opcode "mov" [.opcodeRegister .full, .immFull]
  | 0xC => rowsC p opcode
  | 0xD => rowsD p opcode
  | 0xE => rowsE p opcode
  | 0xF => rowsF p opcode
  | _ => .undefined

end Disassembler.X86
