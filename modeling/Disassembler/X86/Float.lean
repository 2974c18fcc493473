import Disassembler.X86.Operand

/-!
# The floating-point opcodes of x86-64

The eight escape opcodes `D8` to `DF`. With a place in memory the digit of the ModRM byte tells
the operation; with a register the register counts from the top of the stack.
-/

namespace Disassembler.X86

/-- The operations on memory: the mnemonic and the bytes accessed, by escape and digit. -/
def floatMemory : Array (Array (Option (String × Nat))) := #[
  #[some ("fadd", 4), some ("fmul", 4), some ("fcom", 4), some ("fcomp", 4),
    some ("fsub", 4), some ("fsubr", 4), some ("fdiv", 4), some ("fdivr", 4)],
  #[some ("fld", 4), none, some ("fst", 4), some ("fstp", 4),
    some ("fldenv", 0), some ("fldcw", 2), some ("fnstenv", 0), some ("fnstcw", 2)],
  #[some ("fiadd", 4), some ("fimul", 4), some ("ficom", 4), some ("ficomp", 4),
    some ("fisub", 4), some ("fisubr", 4), some ("fidiv", 4), some ("fidivr", 4)],
  #[some ("fild", 4), some ("fisttp", 4), some ("fist", 4), some ("fistp", 4),
    none, some ("fld", 10), none, some ("fstp", 10)],
  #[some ("fadd", 8), some ("fmul", 8), some ("fcom", 8), some ("fcomp", 8),
    some ("fsub", 8), some ("fsubr", 8), some ("fdiv", 8), some ("fdivr", 8)],
  #[some ("fld", 8), some ("fisttp", 8), some ("fst", 8), some ("fstp", 8),
    some ("frstor", 0), none, some ("fnsave", 0), some ("fnstsw", 2)],
  #[some ("fiadd", 2), some ("fimul", 2), some ("ficom", 2), some ("ficomp", 2),
    some ("fisub", 2), some ("fisubr", 2), some ("fidiv", 2), some ("fidivr", 2)],
  #[some ("fild", 2), some ("fisttp", 2), some ("fist", 2), some ("fistp", 2),
    some ("fbld", 10), some ("fild", 8), some ("fbstp", 10), some ("fistp", 8)]]

/-- The operations without operands of escape `D9`, from digit four on. -/
def floatConstants : Array (Option String) := #[
  some "fchs", some "fabs", none, none, some "ftst", some "fxam", none, none,
  some "fld1", some "fldl2t", some "fldl2e", some "fldpi", some "fldlg2", some "fldln2",
  some "fldz", none,
  some "f2xm1", some "fyl2x", some "fptan", some "fpatan", some "fxtract", some "fprem1",
  some "fdecstp", some "fincstp",
  some "fprem", some "fyl2xp1", some "fsqrt", some "fsincos", some "frndint", some "fscale",
  some "fsin", some "fcos"]

/-- The registers, counted from the top of the stack. -/
def stackNames : Array String := #[
  "st(0)", "st(1)", "st(2)", "st(3)", "st(4)", "st(5)", "st(6)", "st(7)"]

/-- A register, counted from the top of the stack. -/
def stackReg (i : Nat) : Operand := .reg stackNames[i]?

/-- The operands of an operation on registers. -/
inductive StackForm where
  /-- The top, then the register named. -/
  | topFirst
  /-- The register named, then the top. -/
  | topLast
  /-- The register named. -/
  | alone
  /-- None. -/
  | nothing
  /-- The processor's `ax`. -/
  | status

/-- The operands of a form, for the register named. -/
def StackForm.operands (i : Nat) : StackForm → List Operand
  | topFirst => [stackReg 0, stackReg i]
  | topLast => [stackReg i, stackReg 0]
  | alone => [stackReg i]
  | nothing => []
  | status => [.named "ax"]

/-- The operations on registers, by escape, digit and register. -/
def floatRegister (escape digit i : Nat) : Option (String × StackForm) :=
  match escape, digit, i with
  | 0, 0, _ => some ("fadd", .topFirst)
  | 0, 1, _ => some ("fmul", .topFirst)
  | 0, 2, _ => some ("fcom", .topFirst)
  | 0, 3, _ => some ("fcomp", .topFirst)
  | 0, 4, _ => some ("fsub", .topFirst)
  | 0, 5, _ => some ("fsubr", .topFirst)
  | 0, 6, _ => some ("fdiv", .topFirst)
  | 0, 7, _ => some ("fdivr", .topFirst)
  | 1, 0, _ => some ("fld", .alone)
  | 1, 1, _ => some ("fxch", .alone)
  | 1, 2, 0 => some ("fnop", .nothing)
  | 1, digit, i =>
    if digit < 4 then none
    else (floatConstants[8 * (digit - 4) + i]?.join).map fun m => (m, .nothing)
  | 2, 0, _ => some ("fcmovb", .topFirst)
  | 2, 1, _ => some ("fcmove", .topFirst)
  | 2, 2, _ => some ("fcmovbe", .topFirst)
  | 2, 3, _ => some ("fcmovu", .topFirst)
  | 2, 5, 1 => some ("fucompp", .nothing)
  | 3, 0, _ => some ("fcmovnb", .topFirst)
  | 3, 1, _ => some ("fcmovne", .topFirst)
  | 3, 2, _ => some ("fcmovnbe", .topFirst)
  | 3, 3, _ => some ("fcmovnu", .topFirst)
  | 3, 4, 2 => some ("fnclex", .nothing)
  | 3, 4, 3 => some ("fninit", .nothing)
  | 3, 5, _ => some ("fucomi", .topFirst)
  | 3, 6, _ => some ("fcomi", .topFirst)
  | 4, 0, _ => some ("fadd", .topLast)
  | 4, 1, _ => some ("fmul", .topLast)
  | 4, 4, _ => some ("fsubr", .topLast)
  | 4, 5, _ => some ("fsub", .topLast)
  | 4, 6, _ => some ("fdivr", .topLast)
  | 4, 7, _ => some ("fdiv", .topLast)
  | 5, 0, _ => some ("ffree", .alone)
  | 5, 2, _ => some ("fst", .alone)
  | 5, 3, _ => some ("fstp", .alone)
  | 5, 4, _ => some ("fucom", .alone)
  | 5, 5, _ => some ("fucomp", .alone)
  | 6, 0, _ => some ("faddp", .topLast)
  | 6, 1, _ => some ("fmulp", .topLast)
  | 6, 3, 1 => some ("fcompp", .nothing)
  | 6, 4, _ => some ("fsubrp", .topLast)
  | 6, 5, _ => some ("fsubp", .topLast)
  | 6, 6, _ => some ("fdivrp", .topLast)
  | 6, 7, _ => some ("fdivp", .topLast)
  | 7, 4, 0 => some ("fnstsw", .status)
  | 7, 5, _ => some ("fucomip", .topFirst)
  | 7, 6, _ => some ("fcomip", .topFirst)
  | _, _, _ => none

/-- The operation of a floating-point opcode. -/
def floatingPoint (p : Prefixes) (opcode : Nat) : ByteReader Operation := do
  let m ← readModRM p
  let escape := opcode % 8
  match m.place with
  | .memory place =>
    let (mnemonic, size) ← .ofOption (floatMemory[escape]?.bind (·[m.digit]?)).join
    return { mnemonic, operands := [.memory { place with size := UInt8.ofNat size }] }
  | .register r =>
    let (mnemonic, form) ← .ofOption (floatRegister escape m.digit (r % 8))
    return { mnemonic, operands := form.operands (r % 8) }

end Disassembler.X86
