import Disassembler.X86.Operand

/-!
# The two-byte opcodes of x86-64

The opcodes after the escape byte `0F`: system instructions, conditional moves and sets, bit
operations, and the vector instructions in common use. A vector instruction takes its element
type from the prefix that would otherwise be a repetition or an operand size.
-/

namespace Disassembler.X86

/-! ## Vector instructions -/

/-- The element type that the prefixes select. -/
inductive Element where
  /-- No prefix: packed single precision. -/
  | packedSingle
  /-- `66`: packed double precision, or integers. -/
  | packedDouble
  /-- `F3`: scalar single precision. -/
  | scalarSingle
  /-- `F2`: scalar double precision. -/
  | scalarDouble
  deriving DecidableEq

/-- The element type: a repetition goes before the operand size. -/
def Prefixes.element (p : Prefixes) : Element :=
  match p.repetition with
  | some .whileNotEqual => .scalarDouble
  | some .whileEqual => .scalarSingle
  | none => if p.operandSize then .packedDouble else .packedSingle

namespace Element

/-- A value for each element type. -/
def select {α : Type} (e : Element) (ps pd ss sd : α) : α :=
  match e with
  | packedSingle => ps
  | packedDouble => pd
  | scalarSingle => ss
  | scalarDouble => sd

/-- The ending of a mnemonic. -/
def ending (e : Element) : String := e.select "ps" "pd" "ss" "sd"

/-- The bytes of an operand in memory. -/
def size (e : Element) : Nat := e.select 16 16 4 8

/-- Is the whole register operated on? -/
def isPacked (e : Element) : Bool := e.select true true false false

end Element

/-- A vector register and then a place. -/
def vectorLoad (m : ModRM) (mnemonic : String) (size : Nat) : Operation :=
  { mnemonic, operands := [m.vectorReg, m.place.vector size] }

/-- A place and then a vector register. -/
def vectorStore (m : ModRM) (mnemonic : String) (size : Nat) : Operation :=
  { mnemonic, operands := [m.place.vector size, m.vectorReg] }

/-- A move into a vector register, or out of one when the opcode is odd. -/
def vectorMove (m : ModRM) (outward : Bool) (mnemonic : String) (size : Nat) : Operation :=
  if outward then vectorStore m mnemonic size else vectorLoad m mnemonic size

/-- Arithmetic on any element type. -/
def vectorArithmetic (p : Prefixes) (stem : String) : ByteReader Operation := do
  let m ← readModRM p
  return vectorLoad m (stem ++ p.element.ending) p.element.size

/-- An operation on whole registers. -/
def vectorPacked (p : Prefixes) (stem : String) : ByteReader Operation := do
  ByteReader.guard p.element.isPacked
  vectorArithmetic p stem

/-- An operation on integers. -/
def vectorInteger (p : Prefixes) (mnemonic : String) : ByteReader Operation := do
  ByteReader.guard (p.element = .packedDouble)
  return vectorLoad (← readModRM p) mnemonic 16

/-- The operations on integers, by opcode. -/
def integerName : Nat → Option String
  | 0x60 => some "punpcklbw"
  | 0x61 => some "punpcklwd"
  | 0x62 => some "punpckldq"
  | 0x6C => some "punpcklqdq"
  | 0x6D => some "punpckhqdq"
  | 0x74 => some "pcmpeqb"
  | 0x75 => some "pcmpeqw"
  | 0x76 => some "pcmpeqd"
  | 0xD4 => some "paddq"
  | 0xDB => some "pand"
  | 0xDF => some "pandn"
  | 0xEB => some "por"
  | 0xEF => some "pxor"
  | 0xFA => some "psubd"
  | 0xFB => some "psubq"
  | 0xFE => some "paddd"
  | _ => none

/-- Moves, conversions and arithmetic of floating-point vectors. -/
def vectorFloat (p : Prefixes) (opcode : Nat) : ByteReader Operation :=
  let e := p.element
  match opcode with
  | 0x10 | 0x11 => do
    let m ← readModRM p
    let outward := opcode == 0x11
    return vectorMove m outward (e.select "movups" "movupd" "movss" "movsd") e.size
  | 0x14 => vectorPacked p "unpckl"
  | 0x15 => vectorPacked p "unpckh"
  | 0x28 | 0x29 => do
    ByteReader.guard e.isPacked
    let m ← readModRM p
    return vectorMove m (opcode == 0x29) ("mova" ++ e.ending) 16
  | 0x2A => do
    ByteReader.guard (!e.isPacked)
    let m ← readModRM p
    return { mnemonic := "cvtsi2" ++ e.ending
             operands := [m.vectorReg, m.place.general p p.wideOr32 (p.wideOr32 / 8)] }
  | 0x2C | 0x2D => do
    ByteReader.guard (!e.isPacked)
    let m ← readModRM p
    return { mnemonic := (if opcode = 0x2C then "cvtt" else "cvt") ++ e.ending ++ "2si"
             operands := [.reg (p.registerName p.wideOr32 m.reg), m.place.vector e.size] }
  | 0x2E | 0x2F => do
    ByteReader.guard e.isPacked
    let m ← readModRM p
    let stem := if opcode = 0x2E then "ucomis" else "comis"
    return vectorLoad m (stem ++ e.select "s" "d" "s" "d") (e.select 4 8 4 8)
  | 0x51 => vectorArithmetic p "sqrt"
  | 0x54 => vectorPacked p "and"
  | 0x55 => vectorPacked p "andn"
  | 0x56 => vectorPacked p "or"
  | 0x57 => vectorPacked p "xor"
  | 0x58 => vectorArithmetic p "add"
  | 0x59 => vectorArithmetic p "mul"
  | 0x5A => do
    let m ← readModRM p
    return vectorLoad m (e.select "cvtps2pd" "cvtpd2ps" "cvtss2sd" "cvtsd2ss") (e.select 8 16 4 8)
  | 0x5C => vectorArithmetic p "sub"
  | 0x5D => vectorArithmetic p "min"
  | 0x5E => vectorArithmetic p "div"
  | 0x5F => vectorArithmetic p "max"
  | _ => .undefined

/-- Moves, shuffles and masks of integer vectors. -/
def vectorOther (p : Prefixes) (opcode : Nat) : ByteReader Operation :=
  let e := p.element
  let wordMove := if p.rexW then "movq" else "movd"
  let size := p.wideOr32
  match opcode with
  | 0x6E => do
    ByteReader.guard (e = .packedDouble)
    let m ← readModRM p
    return { mnemonic := wordMove, operands := [m.vectorReg, m.place.general p size (size / 8)] }
  | 0x7E => do
    let m ← readModRM p
    match e with
    | .packedDouble =>
      return { mnemonic := wordMove, operands := [m.place.general p size (size / 8), m.vectorReg] }
    | .scalarSingle => return vectorLoad m "movq" 8
    | _ => .undefined
  | 0x6F | 0x7F => do
    ByteReader.guard (e = .packedDouble ∨ e = .scalarSingle)
    let m ← readModRM p
    return vectorMove m (opcode == 0x7F) (if e = .packedDouble then "movdqa" else "movdqu") 16
  | 0x70 => do
    ByteReader.guard (e = .packedDouble)
    let m ← readModRM p
    let order ← ByteReader.unsigned 1
    return { vectorLoad m "pshufd" 16 with
      operands := [m.vectorReg, m.place.vector 16, .hexImm order 8] }
  | 0xC6 => do
    ByteReader.guard e.isPacked
    let m ← readModRM p
    let order ← ByteReader.unsigned 1
    return { mnemonic := "shuf" ++ e.ending
             operands := [m.vectorReg, m.place.vector 16, .hexImm order 8] }
  | 0xD6 => do
    ByteReader.guard (e = .packedDouble)
    return vectorStore (← readModRM p) "movq" 8
  | 0xD7 => do
    ByteReader.guard (e = .packedDouble)
    let m ← readModRM p
    ByteReader.guard m.memory?.isNone
    return { mnemonic := "pmovmskb"
             operands := [.reg (p.registerName 32 m.reg), m.place.vector 16] }
  | _ => do
    let name ← .ofOption (integerName opcode)
    vectorInteger p name

/-! ## System instructions -/

/-- The instructions without operands, with their flow. -/
def bareName : Nat → Option (String × Flow)
  | 0x05 => some ("syscall", .next)
  | 0x06 => some ("clts", .next)
  | 0x07 => some ("sysret", .ret)
  | 0x08 => some ("invd", .next)
  | 0x09 => some ("wbinvd", .next)
  | 0x0B => some ("ud2", .next)
  | 0x30 => some ("wrmsr", .next)
  | 0x31 => some ("rdtsc", .next)
  | 0x32 => some ("rdmsr", .next)
  | 0x33 => some ("rdpmc", .next)
  | 0x34 => some ("sysenter", .next)
  | 0x35 => some ("sysexit", .ret)
  | 0xA2 => some ("cpuid", .next)
  | _ => none

/-- Descriptor-table and task registers, by digit. -/
def taskNames : Array String := #["sldt", "str", "lldt", "ltr", "verr", "verw"]

/-- Descriptor tables in memory, by digit. -/
def tableNames : Array (Option String) := #[
  some "sgdt", some "sidt", some "lgdt", some "lidt", some "smsw", none, some "lmsw",
  some "invlpg"]

/-- The instructions that share their opcode with the descriptor tables, by digit and register. -/
def tableDirect : Nat → Nat → Option String
  | 1, 0 => some "monitor"
  | 1, 1 => some "mwait"
  | 1, 2 => some "clac"
  | 1, 3 => some "stac"
  | 2, 0 => some "xgetbv"
  | 2, 1 => some "xsetbv"
  | 7, 0 => some "swapgs"
  | 7, 1 => some "rdtscp"
  | _, _ => none

/-- Descriptor tables and the instructions beside them. -/
def tableGroup (p : Prefixes) : ByteReader Operation := do
  let m ← readModRM p
  match m.place with
  | .register r =>
    let name ← .ofOption (tableDirect m.digit (r % 8))
    bare name
  | .memory place =>
    let mnemonic ← .ofOption tableNames[m.digit]?.join
    return { mnemonic, operands := [.memory { place with size := 0 }] }

/-- The prefetches, by digit. -/
def prefetchNames : Array String := #["prefetchnta", "prefetcht0", "prefetcht1", "prefetcht2"]

/-- Prefetches and the hints that do nothing. -/
def hintGroup (p : Prefixes) (opcode : Nat) : ByteReader Operation := do
  let m ← readModRM p
  let nothing := withModRM p (p.width false) opcode m "nop" [.place .full]
  match opcode, m.memory?, prefetchNames[m.digit]? with
  | 0x0D, _, _ =>
    return { mnemonic := if m.digit = 1 then "prefetchw" else "prefetch"
             operands := [m.place.general p 64 1] }
  | 0x18, some _, some mnemonic => return { mnemonic, operands := [m.place.general p 64 1] }
  | 0x1E, none, _ =>
    if p.element = .scalarSingle ∧ m.digit = 7 ∧ m.directLow? = some 2 then bare "endbr64"
    else if p.element = .scalarSingle ∧ m.digit = 7 ∧ m.directLow? = some 3 then bare "endbr32"
    else nothing
  | _, _, _ => nothing

/-- State saved to memory, with the bytes accessed, by digit. -/
def stateNames : Array (String × Nat) := #[
  ("fxsave", 0), ("fxrstor", 0), ("ldmxcsr", 4), ("stmxcsr", 4), ("xsave", 0), ("xrstor", 0),
  ("xsaveopt", 0), ("clflush", 1)]

/-- State saved to memory, and memory fences. -/
def stateGroup (p : Prefixes) : ByteReader Operation := do
  let m ← readModRM p
  match m.place, m.digit with
  | .register _, 5 => bare "lfence"
  | .register _, 6 => bare "mfence"
  | .register _, 7 => bare "sfence"
  | .register _, _ => .undefined
  | .memory place, digit =>
    let (mnemonic, size) ← .ofOption stateNames[digit]?
    return { mnemonic, operands := [.memory { place with size := UInt8.ofNat size }] }

/-- Wide compare-and-exchange, and random numbers. -/
def exchangeGroup (p : Prefixes) : ByteReader Operation := do
  let m ← readModRM p
  match m.place, m.digit with
  | .memory place, 1 =>
    return { mnemonic := if p.rexW then "cmpxchg16b" else "cmpxchg8b"
             operands := [.memory { place with size := if p.rexW then 16 else 8 }] }
  | .register r, 6 =>
    return { mnemonic := "rdrand", operands := [.reg (p.registerName (p.width false) r)] }
  | .register r, 7 =>
    return { mnemonic := "rdseed", operands := [.reg (p.registerName (p.width false) r)] }
  | _, _ => .undefined

/-! ## General instructions -/

/-- The bit tests, in the order of their opcodes and of their digits. -/
def bitTestNames : Array String := #["bt", "bts", "btr", "btc"]

/-- A bit test with a number. -/
def bitTestGroup (p : Prefixes) (opcode : Nat) : ByteReader Operation := do
  let m ← readModRM p
  ByteReader.guard (4 ≤ m.digit)
  let name ← .ofOption bitTestNames[m.digit - 4]?
  withModRM p (p.width false) opcode m name [.place .full, .imm8]

/-- Descriptor and task registers. -/
def taskGroup (p : Prefixes) (opcode : Nat) : ByteReader Operation := do
  let m ← readModRM p
  let name ← .ofOption taskNames[m.digit]?
  withModRM p 16 opcode m name [.place .word]

/-- Stack, bit, shift, extension and exchange instructions. -/
def general (p : Prefixes) (opcode : Nat) : ByteReader Operation :=
  let op := operation p (p.width false) opcode
  let w : Width := if opcode % 2 = 0 then .byte else .full
  match opcode with
  | 0xA0 => op "push" [.named "fs"]
  | 0xA1 => op "pop" [.named "fs"]
  | 0xA8 => op "push" [.named "gs"]
  | 0xA9 => op "pop" [.named "gs"]
  | 0xA3 | 0xAB | 0xB3 | 0xBB => do
    let name ← .ofOption bitTestNames[(opcode - 0xA3) / 8]?
    op name [.place .full, .register .full]
  | 0xA4 => op "shld" [.place .full, .register .full, .imm8]
  | 0xAC => op "shrd" [.place .full, .register .full, .imm8]
  | 0xA5 => op "shld" [.place .full, .register .full, .named "cl"]
  | 0xAD => op "shrd" [.place .full, .register .full, .named "cl"]
  | 0xAE => stateGroup p
  | 0xAF => op "imul" [.register .full, .place .full]
  | 0xB0 | 0xB1 => op "cmpxchg" [.place w, .register w]
  | 0xB6 => op "movzx" [.register .full, .place .byte]
  | 0xB7 => op "movzx" [.register .full, .place .word]
  | 0xBE => op "movsx" [.register .full, .place .byte]
  | 0xBF => op "movsx" [.register .full, .place .word]
  | 0xB8 => do
    ByteReader.guard (p.element = .scalarSingle)
    op "popcnt" [.register .full, .place .full]
  | 0xBA => bitTestGroup p opcode
  | 0xBC =>
    op (if p.element = .scalarSingle then "tzcnt" else "bsf") [.register .full, .place .full]
  | 0xBD =>
    op (if p.element = .scalarSingle then "lzcnt" else "bsr") [.register .full, .place .full]
  | 0xC0 | 0xC1 => op "xadd" [.place w, .register w]
  | 0xC7 => exchangeGroup p
  | _ => vectorOther p opcode

/-! ## The map -/

/-- The operation of a two-byte opcode, given by its second byte. -/
def secondary (p : Prefixes) (opcode : Nat) : ByteReader Operation :=
  match bareName opcode with
  | some (name, flow) => bare name flow
  | none =>
    match opcode / 16 with
    | 0x0 =>
      match opcode with
      | 0x00 => taskGroup p opcode
      | 0x01 => tableGroup p
      | 0x0D => hintGroup p opcode
      | _ => .undefined
    | 0x1 => if opcode < 0x18 then vectorFloat p opcode else hintGroup p opcode
    | 0x2 | 0x5 => vectorFloat p opcode
    | 0x4 => do
      let condition ← .ofOption conditionNames[opcode % 16]?
      operation p (p.width false) opcode ("cmov" ++ condition) [.register .full, .place .full]
    | 0x6 | 0x7 | 0xD | 0xE | 0xF => vectorOther p opcode
    | 0x8 => do
      let condition ← .ofOption conditionNames[opcode % 16]?
      nearJump ("j" ++ condition) 4 .branch
    | 0x9 => do
      let condition ← .ofOption conditionNames[opcode % 16]?
      operation p 8 opcode ("set" ++ condition) [.place .byte]
    | 0xA | 0xB => general p opcode
    | 0xC =>
      if opcode < 0xC8 then general p opcode
      else operation p p.wideOr32 opcode "bswap" [.opcodeRegister .full]
    | _ => .undefined

end Disassembler.X86
