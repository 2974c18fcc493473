import Disassembler.Text
import Disassembler.Instruction
import Disassembler.Machine

/-!
# Tokens

The printed form of an instruction, cut into typed tokens, in the syntax of its machine. A
reference to an address is resolved by the caller: by name where a symbol is known, else as an
address, which is marked when no instruction starts there.
-/

namespace Disassembler

/-- What a token is. -/
inductive TokenKind where
  /-- An address at which an instruction starts. -/
  | address
  /-- Raw bytes of an encoding. -/
  | bytes
  | mnemonic
  | register
  | immediate
  /-- A reference shown by the name of its symbol. -/
  | symbol
  /-- Punctuation and white space. -/
  | delimiter
  /-- The question marks of an invalid entry. -/
  | invalid
  /-- The header of a row of its own. -/
  | label
  | comment
  /-- A reference to an address with neither symbol nor instruction. -/
  | unresolved
  deriving DecidableEq, Inhabited

namespace TokenKind

/-- All kinds, in the order in which they are listed. -/
def all : List TokenKind :=
  [address, bytes, mnemonic, register, immediate, symbol, delimiter, invalid, label, comment,
    unresolved]

/-- The printed name of a kind. -/
def name : TokenKind → String
  | address => "address"
  | bytes => "bytes"
  | mnemonic => "mnemonic"
  | register => "register"
  | immediate => "immediate"
  | symbol => "symbol"
  | delimiter => "delimiter"
  | invalid => "invalid"
  | label => "label"
  | comment => "comment"
  | unresolved => "unresolved"

end TokenKind

/-- A piece of printed text, with the address it refers to if it is a reference. -/
structure Token where
  kind : TokenKind
  text : Text
  target : Option UInt64 := none
  deriving DecidableEq, Inhabited

/-- What is known about the addresses that an instruction may refer to. -/
structure Resolver where
  /-- The name of the symbol that starts at an address. -/
  symbolAt : UInt64 → Option Text := fun _ => none
  /-- Does an instruction start at an address? -/
  isInstruction : UInt64 → Bool := fun _ => false

instance : Inhabited Resolver := ⟨{}⟩

/-- The way in which a machine's operands are written. -/
inductive Dialect where
  /-- `dword ptr [rax + rcx*4 - 0x10]` -/
  | bracketed
  /-- `[r1, r2, lsl #2]!`, with immediates after a number sign. -/
  | indexed
  /-- `-16(sp)` -/
  | parenthesized
  deriving DecidableEq

/-- The dialect of a machine. -/
def Machine.dialect : Machine → Dialect
  | .x86_64 => .bracketed
  | .arm | .aarch64 => .indexed
  | .riscv64 | .mips => .parenthesized

namespace Token

/-! ## Numbers and addresses -/

/-- An unsigned number in the chosen base. -/
def unsigned (asHex : Bool) (n : Nat) : Text :=
  if asHex then Text.hexPrefixed n else Text.decimal n

/-- A value that is negative only if it is signed; an unsigned one is taken modulo `2 ^ 64`. -/
def number (value : Int) (signed asHex : Bool) : Text :=
  if signed ∧ value < 0 then "-" ++ unsigned asHex value.natAbs
  else unsigned asHex (value % (1 <<< 64 : Nat)).toNat

/-- The most characters of a printed address. -/
def addressLimit : Nat := 23

/-- An address in hexadecimal, padded with zeros to a width, and cut at `addressLimit`. A negative
width pads with spaces on the right. -/
def formatAddress (width : Int) (a : UInt64) : Text :=
  let size := min width.natAbs (2 * addressLimit)
  let digits := Text.hex a.toNat
  (if width < 0 then Text.padRight size digits
    else Text.padLeft (Text.code '0') size digits).take addressLimit

/-- Bytes in hexadecimal, separated by spaces. -/
def formatBytes (bs : List UInt8) : Text := [(32 : UInt8)].intercalate (bs.map Text.hexByte)

/-! ## References -/

/-- Punctuation. -/
def punctuation (t : Text) : Token := { kind := .delimiter, text := t }

/-- The name of a register; a nameless one is a question mark. -/
def registerName (name : Option String) : Token :=
  { kind := .register, text := Text.ofString (name.getD "?") }

/-- A number that is part of an operand. -/
def immediateText (t : Text) : Token := { kind := .immediate, text := t }

/-- A reference to an address: the name of its symbol if it has one, else the address. -/
def reference (resolver : Resolver) (a : UInt64) : Token :=
  match resolver.symbolAt a with
  | some name => { kind := .symbol, text := name.untilNul, target := some a }
  | none =>
    { kind := if resolver.isInstruction a then .address else .unresolved
      text := Text.hexPrefixed a.toNat
      target := some a }

/-! ## Operands -/

/-- A word that is part of an operand: a size, a shift. -/
def word (t : String) : Token := { kind := .mnemonic, text := Text.ofString t }

/-- A shift after its register. Without an amount of its own it is written with a zero, unless it
is an extension; `rrx` has no amount. -/
def shiftTokens (s : Shift) (isExtension : Bool) (register : Option String) : List Token :=
  [punctuation ", ", word s.op] ++
    match register with
    | some r => [punctuation " ", registerName (some r)]
    | none =>
      if s.op = "rrx" ∨ (isExtension ∧ s.amount = 0) then []
      else [punctuation " #", immediateText (Text.decimal s.amount.toNat)]

/-- The extensions of a register operand: `uxtb` to `sxtx`. -/
def isRegisterExtension (op : String) : Bool :=
  match Text.ofString op with
  | [a, x, _, _] => (a == Text.code 'u' || a == Text.code 's') && x == Text.code 'x'
  | _ => false

/-- A register, with its part of a list in braces and with its shift. -/
def registerTokens (r : RegisterOperand) : List Token :=
  (if r.opensList then [punctuation "\x7b"] else [])
    ++ [registerName r.name]
    ++ (if r.writeback then [punctuation "!"] else [])
    ++ (match r.shift with
      | some s => shiftTokens s (isRegisterExtension s.op) s.register
      | none => [])
    ++ (if r.closesList then [punctuation "\x7d"] else [])

/-- An immediate, with its shift. -/
def immediateTokens (dialect : Dialect) (i : ImmediateOperand) : List Token :=
  (if dialect = .indexed then [punctuation "#"] else [])
    ++ [immediateText (number i.value i.signed i.hex)]
    ++ (match i.shift with
      | some s =>
        [punctuation ", ", word s.op, punctuation " #", immediateText (Text.decimal s.amount.toNat)]
      | none => [])

/-- The word for an access of a number of bytes. -/
def sizeWord : UInt8 → Option String
  | 1 => some "byte"
  | 2 => some "word"
  | 4 => some "dword"
  | 6 => some "fword"
  | 8 => some "qword"
  | 10 => some "tbyte"
  | 16 => some "xmmword"
  | _ => none

/-- A memory operand in brackets, with signs between its parts. Without base and index it is the
address alone; else a displacement is written if one is encoded. -/
def bracketedTokens (m : MemoryOperand) : List Token :=
  (match sizeWord m.size with
    | some s => [word s, punctuation " ptr "]
    | none => [])
    ++ (match m.segment with
      | some s => [registerName (some s), punctuation ":"]
      | none => [])
    ++ [punctuation "["]
    ++ (match m.base with
      | some b => [registerName (some b)]
      | none => [])
    ++ (match m.index with
      | some i =>
        (if m.base.isSome then [punctuation " + "] else [])
          ++ [registerName (some i), punctuation "*", immediateText (Text.decimal m.scale.toNat)]
      | none => [])
    ++ (if m.base.isNone ∧ m.index.isNone then
        [immediateText (number m.displacement false true)]
      else if m.width ≠ 0 then
        [punctuation (if m.displacement < 0 then " - " else " + "),
          immediateText (Text.hexPrefixed m.displacement.natAbs)]
      else [])
    ++ [punctuation "]"]

/-- The shifts of an index register; every other word is an extension. -/
def isIndexShift (op : String) : Bool := op == "lsl" || op == "lsr" || op == "asr" || op == "ror"

/-- The offset of an indexed memory operand: an index register or a number, which is left out
when it is zero and added before the access. -/
def offsetTokens (m : MemoryOperand) : List Token :=
  match m.index with
  | some i =>
    [punctuation ", "] ++ (if m.negated then [punctuation "-"] else []) ++ [registerName (some i)]
      ++ (match m.shift with
        | some s => shiftTokens s (!isIndexShift s.op) none
        | none => [])
  | none =>
    if m.displacement ≠ 0 ∨ m.mode = .postIndexed then
      [punctuation ", #", immediateText (number m.displacement true false)]
    else []

/-- A memory operand in brackets, with commas between its parts. One that is relative to the
instruction and has no base is written as the address it refers to. -/
def indexedTokens (resolver : Resolver) (m : MemoryOperand) : List Token :=
  match m.base, m.pcTarget with
  | none, some t => [reference resolver t]
  | base, _ =>
    [punctuation "[", registerName base] ++
      match m.mode with
      | .offset => offsetTokens m ++ [punctuation "]"]
      | .preIndexed => offsetTokens m ++ [punctuation "]!"]
      | .postIndexed => [punctuation "]"] ++ offsetTokens m

/-- A memory operand as a displacement, if one is encoded, and a base in parentheses. -/
def parenthesizedTokens (m : MemoryOperand) : List Token :=
  (if m.width ≠ 0 then [immediateText (number m.displacement true false)] else [])
    ++ [punctuation "(", registerName m.base, punctuation ")"]

/-- A memory operand in a dialect. -/
def memoryTokens (dialect : Dialect) (resolver : Resolver) (m : MemoryOperand) : List Token :=
  match dialect with
  | .bracketed => bracketedTokens m
  | .indexed => indexedTokens resolver m
  | .parenthesized => parenthesizedTokens m

/-- An operand in a dialect. -/
def operandTokens (dialect : Dialect) (resolver : Resolver) : Operand → List Token
  | .register r => registerTokens r
  | .immediate i => immediateTokens dialect i
  | .memory m => memoryTokens dialect resolver m
  | .relative t => [reference resolver t]

/-- The address of a memory operand that is relative to a base register. -/
def basedTarget? : Operand → Option UInt64
  | .memory m => if m.base.isSome then m.pcTarget else none
  | _ => none

/-! ## Instructions -/

/-- The operands after their separators: a space before the first, commas between them. -/
def operandListTokens (dialect : Dialect) (resolver : Resolver) : List Operand → List Token
  | [] => []
  | o :: os =>
    punctuation " " :: operandTokens dialect resolver o
      ++ os.flatMap fun p => punctuation ", " :: operandTokens dialect resolver p

/-- The comment that names the first address relative to a base register. -/
def commentTokens (resolver : Resolver) (operands : List Operand) : List Token :=
  match operands.findSome? basedTarget? with
  | some t => [punctuation "  ", { kind := .comment, text := "; " }, reference resolver t]
  | none => []

/-- An operation of a machine: its mnemonic, its operands and a comment. -/
def ofParts (machine : Machine) (resolver : Resolver) (mnemonic : Text)
    (operands : List Operand) : List Token :=
  { kind := .mnemonic, text := mnemonic }
    :: operandListTokens machine.dialect resolver operands ++ commentTokens resolver operands

/-- An invalid entry. -/
def ofInvalid : List Token := [{ kind := .invalid, text := "??" }]

/-- The tokens of an instruction. -/
def ofInstruction (machine : Machine) (resolver : Resolver) (i : Instruction) : List Token :=
  match i.operation with
  | some op => ofParts machine resolver op.mnemonic op.operands
  | none => ofInvalid

/-- The text of a row of tokens. -/
def textOf (ts : List Token) : Text := ts.flatMap (·.text)

end Token

end Disassembler
