import Disassembler.Text

/-!
# Machines

The five machines whose code is decoded, with the traits of each that the rest of the library
needs, and the names by which a machine is asked for.
-/

namespace Disassembler

/-- A machine whose code can be decoded. -/
inductive Machine where
  | x86_64
  | arm
  | aarch64
  | riscv64
  | mips
  deriving DecidableEq, Inhabited

namespace Machine

/-- All machines, in the order in which they are listed. -/
def all : List Machine := [x86_64, arm, aarch64, riscv64, mips]

/-- The name under which a machine is listed. -/
def name : Machine → String
  | x86_64 => "x86_64"
  | arm => "arm"
  | aarch64 => "aarch64"
  | riscv64 => "riscv64"
  | mips => "mips"

/-- Other names of a machine. -/
def aliases : Machine → List String
  | x86_64 => ["x64", "amd64"]
  | arm => ["arm32", "a32"]
  | aarch64 => ["arm64"]
  | riscv64 => ["riscv", "rv64"]
  | mips => ["mips32", "mipsel"]

/-- The longest instruction, in bytes. -/
def maxLength : Machine → Nat
  | x86_64 => 15
  | _ => 4

/-- The alignment of instructions, in bytes. -/
def alignment : Machine → Nat
  | x86_64 => 1
  | _ => 4

/-- How many instructions after a branch are executed before control moves. -/
def delaySlots : Machine → Nat
  | mips => 1
  | _ => 0

/-- The bytes of a code pointer. -/
def pointerSize : Machine → Nat
  | arm | mips => 4
  | _ => 8

/-- The hexadecimal digits of a printed address. -/
def addressDigits : Machine → Nat
  | arm | mips => 8
  | _ => 12

/-- The machine of a name or alias, in upper or lower case. -/
def ofName? (t : Text) : Option Machine :=
  all.find? fun m => (m.name :: m.aliases).any fun n => Text.ofString n == t.untilNul.lower

end Machine

end Disassembler
