import Disassembler.AArch64.Operand

/-!
# Control and system instructions of AArch64

Branches, exceptions, hints, barriers, system registers and cache maintenance.
-/

namespace Disassembler.AArch64

/-! ## Branches -/

/-- The target of a branch whose offset field counts words. -/
def wordTarget (addr : UInt64) (width field : Nat) : UInt64 :=
  moveBy addr (4 * signExtend width field)

/-- The bit that `tbz` and `tbnz` test. -/
def testedBit (w : UInt32) : Nat := bits w 31 31 <<< 5 + bits w 23 19

/-- The opcode part of the branches to a register: all but the register field. -/
def registerBranch (w : UInt32) : Option Nat :=
  if bits w 15 10 = 0 ∧ bits w 4 0 = 0 then some (bits w 31 16) else none

/-- Exceptions that carry a sixteen-bit number. -/
def exception (w : UInt32) : Option Operation :=
  let with16 (m : String) := plain m [.hexImm (bits w 20 5) 16]
  match bits w 23 21, bits w 4 0 with
  | 0, 1 => with16 "svc"
  | 0, 2 => with16 "hvc"
  | 0, 3 => with16 "smc"
  | 1, 0 => with16 "brk"
  | 2, 0 => with16 "hlt"
  | _, _ => none

/-- Branches, returns and exceptions. -/
def branch (w : UInt32) (addr : UInt64) : Option Operation :=
  if bits w 30 26 = 0x05 then
    let target := wordTarget addr 26 (bits w 25 0)
    some (if bit w 31 then .withTarget "bl" [] .call target else .withTarget "b" [] .jump target)
  else if bits w 31 24 = 0x54 ∧ !bit w 4 then
    let c := bits w 3 0
    conditionNames[c]?.map fun name =>
      .withTarget ("b." ++ name) [] (if 14 ≤ c then .jump else .branch)
        (wordTarget addr 19 (bits w 23 5))
  else if bits w 30 25 = 0x1A then
    some (.withTarget (if bit w 24 then "cbnz" else "cbz") [greg (sf w) (rd w)] .branch
      (wordTarget addr 19 (bits w 23 5)))
  else if bits w 30 25 = 0x1B then
    some (.withTarget (if bit w 24 then "tbnz" else "tbz")
      [greg (32 ≤ testedBit w) (rd w), small (testedBit w)] .branch
      (wordTarget addr 14 (bits w 18 5)))
  else if registerBranch w = some 0xD61F then
    some { mnemonic := "br", operands := [greg true (rn w)], flow := .indirect }
  else if registerBranch w = some 0xD63F then
    some { mnemonic := "blr", operands := [greg true (rn w)], flow := .indirect }
  else if registerBranch w = some 0xD65F then
    some { mnemonic := "ret", operands := if rn w = 30 then [] else [greg true (rn w)]
           flow := .ret }
  else if w = 0xD65F0BFF then some { mnemonic := "retaa", flow := .ret }
  else if w = 0xD65F0FFF then some { mnemonic := "retab", flow := .ret }
  else if w = 0xD69F03E0 then some { mnemonic := "eret", flow := .ret }
  else if bits w 31 24 = 0xD4 then exception w
  else none

/-! ## System registers -/

/-- The encoding of a system register: two, three, four, four and three bits. -/
def systemCode (op0 op1 crn crm op2 : Nat) : Nat :=
  op0 <<< 14 + op1 <<< 11 + crn <<< 7 + crm <<< 3 + op2

/-- The system registers that have a name. -/
def systemNames : List (Nat × String) := [
  (systemCode 3 0 0 0 0, "midr_el1"), (systemCode 3 0 0 0 5, "mpidr_el1"),
  (systemCode 3 0 1 0 0, "sctlr_el1"), (systemCode 3 0 2 0 0, "ttbr0_el1"),
  (systemCode 3 0 2 0 1, "ttbr1_el1"), (systemCode 3 0 2 0 2, "tcr_el1"),
  (systemCode 3 0 4 0 0, "spsr_el1"), (systemCode 3 0 4 0 1, "elr_el1"),
  (systemCode 3 0 4 1 0, "sp_el0"), (systemCode 3 0 4 2 2, "currentel"),
  (systemCode 3 0 5 2 0, "esr_el1"), (systemCode 3 0 6 0 0, "far_el1"),
  (systemCode 3 0 10 2 0, "mair_el1"), (systemCode 3 0 12 0 0, "vbar_el1"),
  (systemCode 3 0 13 0 4, "tpidr_el1"), (systemCode 3 3 0 0 1, "ctr_el0"),
  (systemCode 3 3 0 0 7, "dczid_el0"), (systemCode 3 3 4 2 0, "nzcv"),
  (systemCode 3 3 4 2 1, "daif"), (systemCode 3 3 4 4 0, "fpcr"),
  (systemCode 3 3 4 4 1, "fpsr"), (systemCode 3 3 13 0 2, "tpidr_el0"),
  (systemCode 3 3 13 0 3, "tpidrro_el0"), (systemCode 3 3 14 0 0, "cntfrq_el0"),
  (systemCode 3 3 14 0 1, "cntpct_el0"), (systemCode 3 3 14 0 2, "cntvct_el0")]

/-- A system register, by name or else by its encoding. -/
def systemOperand (w : UInt32) : Operand :=
  match systemNames.lookup (bits w 20 5) with
  | some n => .named n
  | none => .hexImm (bits w 20 5) 16

/-! ## Hints, barriers and caches -/

/-- A hint; one without a name is written with its number. -/
def hint (w : UInt32) : Option Operation :=
  match bits w 11 5 with
  | 0x00 => plain "nop" []
  | 0x01 => plain "yield" []
  | 0x02 => plain "wfe" []
  | 0x03 => plain "wfi" []
  | 0x04 => plain "sev" []
  | 0x05 => plain "sevl" []
  | 0x19 => plain "paciasp" []
  | 0x1B => plain "pacibsp" []
  | 0x1D => plain "autiasp" []
  | 0x1F => plain "autibsp" []
  | 0x20 => plain "bti" []
  | 0x22 => plain "bti" [.named "c"]
  | 0x24 => plain "bti" [.named "j"]
  | 0x26 => plain "bti" [.named "jc"]
  | h => plain "hint" [.hexImm h 7]

/-- A barrier. -/
def barrier (w : UInt32) : Option Operation :=
  match bits w 7 0 with
  | 0x5F => plain "clrex" []
  | 0x9F => plain "dsb" [.hexImm (bits w 11 8) 4]
  | 0xBF => plain "dmb" [.hexImm (bits w 11 8) 4]
  | 0xDF => plain "isb" []
  | _ => none

/-- Cache maintenance, by its encoding: the mnemonic and the operation. -/
def cacheOps : List (Nat × String × String) := [
  (systemCode 0 3 7 4 1, "dc", "zva"), (systemCode 0 3 7 10 1, "dc", "cvac"),
  (systemCode 0 3 7 11 1, "dc", "cvau"), (systemCode 0 3 7 14 1, "dc", "civac"),
  (systemCode 0 0 7 6 1, "dc", "ivac"), (systemCode 0 3 7 5 1, "ic", "ivau")]

/-- System instructions. -/
def system (w : UInt32) : Option Operation :=
  if bits w 31 12 = 0xD5032 ∧ bits w 4 0 = 0x1F then hint w
  else if bits w 31 12 = 0xD5033 then barrier w
  else if bits w 31 20 = 0xD53 then plain "mrs" [greg true (rd w), systemOperand w]
  else if bits w 31 20 = 0xD51 then plain "msr" [systemOperand w, greg true (rd w)]
  else if bits w 31 19 = 0x1AA1 then
    (cacheOps.lookup (bits w 18 5)).bind fun (m, op) => plain m [.named op, greg true (rd w)]
  else none

end Disassembler.AArch64
