import Disassembler.ByteReader
import Disassembler.Instruction
import Disassembler.X86.Prefixes

/-!
# Operands of x86-64

Register names, the ModRM byte with what follows it, and the kinds of argument that an opcode
takes. Targets are read as displacements from the end of the instruction; the decoder moves them
to their place when the end is known.
-/

namespace Disassembler.X86

/-! ## Names -/

/-- The byte registers under a REX prefix. -/
def byteNames : Array String := #[
  "al", "cl", "dl", "bl", "spl", "bpl", "sil", "dil",
  "r8b", "r9b", "r10b", "r11b", "r12b", "r13b", "r14b", "r15b"]

/-- The byte registers without a REX prefix. -/
def legacyByteNames : Array String := #["al", "cl", "dl", "bl", "ah", "ch", "dh", "bh"]

/-- The 16-bit registers. -/
def wordNames : Array String := #[
  "ax", "cx", "dx", "bx", "sp", "bp", "si", "di",
  "r8w", "r9w", "r10w", "r11w", "r12w", "r13w", "r14w", "r15w"]

/-- The 32-bit registers. -/
def dwordNames : Array String := #[
  "eax", "ecx", "edx", "ebx", "esp", "ebp", "esi", "edi",
  "r8d", "r9d", "r10d", "r11d", "r12d", "r13d", "r14d", "r15d"]

/-- The 64-bit registers. -/
def qwordNames : Array String := #[
  "rax", "rcx", "rdx", "rbx", "rsp", "rbp", "rsi", "rdi",
  "r8", "r9", "r10", "r11", "r12", "r13", "r14", "r15"]

/-- The vector registers. -/
def vectorNames : Array String := #[
  "xmm0", "xmm1", "xmm2", "xmm3", "xmm4", "xmm5", "xmm6", "xmm7",
  "xmm8", "xmm9", "xmm10", "xmm11", "xmm12", "xmm13", "xmm14", "xmm15"]

/-- The segment registers. -/
def segmentNames : Array String := #["es", "cs", "ss", "ds", "fs", "gs"]

/-- The condition codes. -/
def conditionNames : Array String := #[
  "o", "no", "b", "ae", "e", "ne", "be", "a", "s", "ns", "p", "np", "l", "ge", "le", "g"]

/-- The name of a general register of a width. -/
def Prefixes.registerName (p : Prefixes) (bits r : Nat) : Option String :=
  match bits with
  | 8 => if p.rex ≠ 0 ∨ 8 ≤ r then byteNames[r]? else legacyByteNames[r]?
  | 16 => wordNames[r]?
  | 32 => dwordNames[r]?
  | _ => qwordNames[r]?

/-- The name of an address register. -/
def Prefixes.addressName (p : Prefixes) (r : Nat) : Option String :=
  if p.addressSize then dwordNames[r]? else qwordNames[r]?

/-! ## ModRM -/

/-- What the ModRM byte and the bytes after it name, beside a register: another register, or a
place in memory. -/
inductive Place where
  | register (r : Nat)
  | memory (m : MemoryOperand)
  deriving DecidableEq, Inhabited

/-- A ModRM byte with what follows it. -/
structure ModRM where
  /-- The register field, with its high bit from the REX prefix. -/
  reg : Nat
  place : Place
  deriving DecidableEq, Inhabited

/-- The register field without its high bit: the opcode extension. -/
def ModRM.digit (m : ModRM) : Nat := m.reg % 8

/-- The low three bits of the register that the place names; nothing in memory. -/
def ModRM.directLow? (m : ModRM) : Option Nat :=
  match m.place with
  | .register r => some (r % 8)
  | .memory _ => none

/-- The place in memory; nothing when it is a register. -/
def ModRM.memory? (m : ModRM) : Option MemoryOperand :=
  match m.place with
  | .register _ => none
  | .memory m => some m

/-- A displacement of some bytes, which may be none. -/
def displace (m : MemoryOperand) (bytes : Nat) : ByteReader MemoryOperand := do
  if bytes = 0 then return m
  let d ← ByteReader.signed bytes
  return { m with displacement := d, width := UInt8.ofNat (8 * bytes) }

/-- The bytes of the displacement that a mode field asks for. -/
def displacementBytes (mode : Nat) : Nat :=
  match mode with
  | 1 => 1
  | 2 => 4
  | _ => 0

/-- A place given by a base, a scaled index and a displacement. -/
def readScaled (p : Prefixes) (mode : Nat) : ByteReader MemoryOperand := do
  let sib := (← ByteReader.byte).toNat
  let index := Prefixes.extended p.rexX (sib / 8 % 8)
  let base := Prefixes.extended p.rexB (sib % 8)
  let m : MemoryOperand := { segment := p.segment }
  let m := if index = 4 then m else
    { m with index := p.addressName index, scale := UInt8.ofNat (1 <<< (sib / 64)) }
  if sib % 8 = 5 ∧ mode = 0 then displace m 4
  else displace { m with base := p.addressName base } (displacementBytes mode)

/-- A place given by an offset from the end of the instruction. -/
def readRelative (p : Prefixes) : ByteReader MemoryOperand := do
  let m ← displace { segment := p.segment, base := some (if p.addressSize then "eip" else "rip") } 4
  return { m with pcTarget := some (UInt64.ofInt m.displacement) }

/-- Reads a ModRM byte and what follows it. -/
def readModRM (p : Prefixes) : ByteReader ModRM := do
  let m := (← ByteReader.byte).toNat
  let mode := m / 64
  let low := m % 8
  let rm := Prefixes.extended p.rexB low
  let reg := Prefixes.extended p.rexR (m / 8 % 8)
  if mode = 3 then return { reg, place := .register rm }
  else if low = 4 then return { reg, place := .memory (← readScaled p mode) }
  else if low = 5 ∧ mode = 0 then return { reg, place := .memory (← readRelative p) }
  else
    let m ← displace { segment := p.segment, base := p.addressName rm } (displacementBytes mode)
    return { reg, place := .memory m }

/-- A place as an operand: a general register of a width, or memory accessed in some bytes. -/
def Place.general (p : Prefixes) (bits : Nat) (size : Nat) : Place → Operand
  | .register r => .reg (p.registerName bits r)
  | .memory m => .memory { m with size := UInt8.ofNat size }

/-- A place as an operand: a vector register, or memory accessed in some bytes. -/
def Place.vector (size : Nat) : Place → Operand
  | .register r => .reg vectorNames[r]?
  | .memory m => .memory { m with size := UInt8.ofNat size }

/-- The register field as a vector register. -/
def ModRM.vectorReg (m : ModRM) : Operand := .reg vectorNames[m.reg]?

/-! ## Arguments -/

/-- The width of an argument. -/
inductive Width where
  | byte
  | word
  | dword
  /-- The operand width of the instruction. -/
  | full
  deriving DecidableEq

/-- The bits of a width, when the operand width is known. -/
def Width.bits (full : Nat) : Width → Nat
  | byte => 8
  | word => 16
  | dword => 32
  | .full => full

/-- An argument of an opcode. -/
inductive Argument where
  /-- The place that ModRM names. -/
  | place (w : Width)
  /-- The register that ModRM names. -/
  | register (w : Width)
  /-- The place that ModRM names, in memory and without an access. -/
  | address
  /-- The segment register that ModRM names. -/
  | segment
  /-- The register in the low bits of the opcode. -/
  | opcodeRegister (w : Width)
  /-- The accumulator. -/
  | accumulator (w : Width)
  /-- An unsigned byte. -/
  | imm8
  /-- A byte whose sign is extended to the operand width. -/
  | imm8Signed
  /-- An unsigned 16-bit number. -/
  | imm16
  /-- A number of the operand width, but of 32 signed bits where that is 64. -/
  | immUpTo32
  /-- A number of the operand width. -/
  | immFull
  /-- An absolute address. -/
  | absolute (w : Width)
  /-- A register that the opcode implies. -/
  | named (name : String)
  /-- The number one. -/
  | one
  deriving DecidableEq

/-- Does an argument need the ModRM byte? -/
def Argument.usesModRM : Argument → Bool
  | place _ | register _ | address | segment => true
  | _ => false

/-- Reads an argument of an opcode, when the ModRM byte is read. -/
def Argument.read (p : Prefixes) (full : Nat) (opcode : Nat) (m : ModRM) :
    Argument → ByteReader Operand
  | place w => return m.place.general p (w.bits full) (w.bits full / 8)
  | register w => return .reg (p.registerName (w.bits full) m.reg)
  | address => do
    let place ← ByteReader.ofOption m.memory?
    return .memory place
  | segment => do
    let name ← ByteReader.ofOption segmentNames[m.digit]?
    return .named name
  | opcodeRegister w =>
    return .reg (p.registerName (w.bits full) (Prefixes.extended p.rexB (opcode % 8)))
  | accumulator w => return .reg (p.registerName (w.bits full) 0)
  | imm8 => return .hexImm (← ByteReader.unsigned 1) 8
  | imm8Signed =>
    return .immediate { value := ← ByteReader.signed 1, width := 8, signed := true, hex := true }
  | imm16 => return .hexImm (← ByteReader.unsigned 2) 16
  | immUpTo32 =>
    match full with
    | 16 => return .hexImm (← ByteReader.unsigned 2) 16
    | 64 =>
      return .immediate { value := ← ByteReader.signed 4, width := 32, signed := true, hex := true }
    | _ => return .hexImm (← ByteReader.unsigned 4) 32
  | immFull =>
    match full with
    | 16 => return .hexImm (← ByteReader.unsigned 2) 16
    | 64 => return .hexImm (← ByteReader.unsigned 8) 64
    | _ => return .hexImm (← ByteReader.unsigned 4) 32
  | absolute w => do
    let bytes := if p.addressSize then 4 else 8
    let a ← ByteReader.unsigned bytes
    return .memory { displacement := a, width := UInt8.ofNat (8 * bytes)
                     size := UInt8.ofNat (w.bits full / 8), segment := p.segment }
  | named name => return .named name
  | one => return .decimalImm 1 8

/-- Reads the arguments of an opcode in order. -/
def readArguments (p : Prefixes) (full opcode : Nat) (m : ModRM) :
    List Argument → ByteReader (List Operand)
  | [] => return []
  | a :: as => do
    let o ← a.read p full opcode m
    return o :: (← readArguments p full opcode m as)

/-- An operation whose ModRM byte has been read. -/
def withModRM (p : Prefixes) (full opcode : Nat) (m : ModRM) (mnemonic : String)
    (args : List Argument) (flow : Flow := .next) : ByteReader Operation :=
  return { mnemonic, operands := ← readArguments p full opcode m args, flow }

/-- An operation with its arguments; the ModRM byte is read first if one of them needs it. -/
def operation (p : Prefixes) (full opcode : Nat) (mnemonic : String) (args : List Argument)
    (flow : Flow := .next) : ByteReader Operation := do
  if args.any Argument.usesModRM then
    withModRM p full opcode (← readModRM p) mnemonic args flow
  else withModRM p full opcode default mnemonic args flow

/-- An operation without arguments. -/
def bare (mnemonic : String) (flow : Flow := .next) : ByteReader Operation :=
  return { mnemonic, flow }

/-- A jump by a signed displacement of some bytes from the end of the instruction. -/
def nearJump (mnemonic : String) (bytes : Nat) (flow : UInt64 → Flow) : ByteReader Operation := do
  let d ← ByteReader.signed bytes
  return .withTarget mnemonic [] flow (UInt64.ofInt d)

end Disassembler.X86
