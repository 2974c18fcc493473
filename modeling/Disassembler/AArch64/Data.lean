import Disassembler.AArch64.Operand

/-!
# Data processing of AArch64

Arithmetic, logic, bit fields, conditional operations and multiplication, with immediates and
with registers, each under its preferred alias.
-/

namespace Disassembler.AArch64

/-! ## Immediates -/

/-- The address of a nearby byte or page. -/
def pcAddress (w : UInt32) (addr : UInt64) : Option Operation :=
  let offset := signExtend 21 (bits w 23 5 <<< 2 + bits w 30 29)
  if bit w 31 then
    let page := UInt64.ofNat (addr.toNat >>> 12 <<< 12)
    plain "adrp" [greg true (rd w), .relative (moveBy page (4096 * offset))]
  else plain "adr" [greg true (rd w), .relative (moveBy addr offset)]

/-- Addition and subtraction of a twelve-bit immediate. -/
def addSubImm (w : UInt32) : Option Operation :=
  let flags := bit w 29
  let amount := if bit w 22 then 12 else 0
  let value := shiftedImm (bits w 21 10) 12 amount
  if bits w 30 29 = 0 ∧ bits w 21 10 = 0 ∧ amount = 0 ∧ (rd w = 31 ∨ rn w = 31) then
    plain "mov" [sreg (sf w) (rd w), sreg (sf w) (rn w)]
  else if flags ∧ rd w = 31 then
    plain (if bit w 30 then "cmp" else "cmn") [sreg (sf w) (rn w), value]
  else
    let dest := if flags then greg (sf w) (rd w) else sreg (sf w) (rd w)
    plain (addSubName w) [dest, sreg (sf w) (rn w), value]

/-- The value of a logical immediate: a run of ones, rotated in an element of two to 64 bits, and
the element repeated. The element's size is told by the highest clear bit of the length field. -/
def bitmask (n : Bool) (imms immr : Nat) (wide : Bool) : Option Nat :=
  let marks := (if n then 64 else 0) + (63 - imms)
  if marks < 2 ∨ (!wide ∧ n) then none
  else
    let size := 1 <<< marks.log2
    let ones := imms % size + 1
    let turn := immr % size
    if ones = size then none
    else
      let run := 1 <<< ones - 1
      let element := (run >>> turn + run <<< (size - turn)) % 1 <<< size
      some (element * ((1 <<< 64 - 1) / (1 <<< size - 1)) % 1 <<< (if wide then 64 else 32))

/-- The width of an operation as the width of a field. -/
def fieldWidth (w : UInt32) : UInt8 := if sf w then 64 else 32

/-- The logical operations with an immediate. -/
def logicalNames : Array String := #["and", "orr", "eor", "ands"]

/-- Logic with an immediate. -/
def logicalImm (w : UInt32) : Option Operation := do
  let value ← bitmask (bit w 22) (bits w 15 10) (bits w 21 16) (sf w)
  let value := Operand.hexImm value (fieldWidth w)
  let opc := bits w 30 29
  if opc = 1 ∧ rn w = 31 then plain "mov" [sreg (sf w) (rd w), value]
  else if opc = 3 ∧ rd w = 31 then plain "tst" [greg (sf w) (rn w), value]
  else
    let dest := if opc = 3 then greg (sf w) (rd w) else sreg (sf w) (rd w)
    plain (← logicalNames[opc]?) [dest, greg (sf w) (rn w), value]

/-- Moves of a sixteen-bit immediate into one quarter of a register. The moved value is shown
whole, except where `movk` keeps the rest or where an inverted zero is shifted. -/
def moveWide (w : UInt32) : Option Operation :=
  let amount := 16 * bits w 22 21
  let part := bits w 20 5
  let dest := greg (sf w) (rd w)
  let size := if sf w then 64 else 32
  if !sf w ∧ 32 ≤ amount then none
  else match bits w 30 29 with
    | 0 =>
      if part = 0 ∧ amount ≠ 0 then plain "movn" [dest, shiftedImm 0 16 amount]
      else
        let value := signExtend size (1 <<< size - 1 - part <<< amount)
        plain "mov" [dest, .immediate { value, width := fieldWidth w, signed := true, hex := true }]
    | 2 => plain "mov" [dest, .hexImm (part <<< amount : Nat) (fieldWidth w)]
    | 3 => plain "movk" [dest, shiftedImm part 16 amount]
    | _ => none

/-- Signed, inserting and unsigned moves of a bit field, under their aliases. -/
def bitField (w : UInt32) : Option Operation :=
  let size := if sf w then 64 else 32
  let r := bits w 21 16
  let s := bits w 15 10
  let dest := greg (sf w) (rd w)
  let src := greg (sf w) (rn w)
  let toHigh (m : String) := plain m [dest, src, small (size - r), small (s + 1)]
  let toLow (m : String) := plain m [dest, src, small r, small (s - r + 1)]
  if bit w 22 ≠ sf w ∨ size ≤ r ∨ size ≤ s then none
  else match bits w 30 29 with
    | 0 =>
      if s = size - 1 then plain "asr" [dest, src, small r]
      else if r = 0 ∧ s = 7 then plain "sxtb" [dest, greg false (rn w)]
      else if r = 0 ∧ s = 15 then plain "sxth" [dest, greg false (rn w)]
      else if r = 0 ∧ s = 31 then plain "sxtw" [dest, greg false (rn w)]
      else if s < r then toHigh "sbfiz"
      else toLow "sbfx"
    | 1 => if s < r then toHigh "bfi" else toLow "bfxil"
    | 2 =>
      if s = size - 1 then plain "lsr" [dest, src, small r]
      else if s + 1 = r then plain "lsl" [dest, src, small (size - 1 - s)]
      else if r = 0 ∧ s = 7 ∧ !sf w then plain "uxtb" [dest, src]
      else if r = 0 ∧ s = 15 ∧ !sf w then plain "uxth" [dest, src]
      else if s < r then toHigh "ubfiz"
      else toLow "ubfx"
    | _ => none

/-- A field taken across two registers; a rotation when they are the same. -/
def extract (w : UInt32) : Option Operation :=
  let lsb := bits w 15 10
  if bit w 22 ≠ sf w ∨ (!sf w ∧ 32 ≤ lsb) then none
  else if rn w = rm w then plain "ror" [greg (sf w) (rd w), greg (sf w) (rn w), small lsb]
  else
    plain "extr" [greg (sf w) (rd w), greg (sf w) (rn w), greg (sf w) (rm w), small lsb]

/-- Data processing with an immediate. -/
def dataImmediate (w : UInt32) (addr : UInt64) : Option Operation :=
  match bits w 28 23 with
  | 0x20 | 0x21 => pcAddress w addr
  | 0x22 => addSubImm w
  | 0x24 => logicalImm w
  | 0x25 => moveWide w
  | 0x26 => bitField w
  | 0x27 => extract w
  | _ => none

/-! ## Registers -/

/-- The logical operations with a register; each even one is followed by its inverting form. -/
def logicalRegNames : Array String := #["and", "bic", "orr", "orn", "eor", "eon", "ands", "bics"]

/-- Logic with a shifted register. -/
def logicalReg (w : UInt32) : Option Operation :=
  let amount := bits w 15 10
  let opc := bits w 30 29
  let inverts := bit w 21
  let src := shiftedReg (sf w) (rm w) (bits w 23 22) amount
  if !sf w ∧ 32 ≤ amount then none
  else if opc = 1 ∧ !inverts ∧ rn w = 31 ∧ amount = 0 then
    plain "mov" [greg (sf w) (rd w), greg (sf w) (rm w)]
  else if opc = 1 ∧ inverts ∧ rn w = 31 then plain "mvn" [greg (sf w) (rd w), src]
  else if opc = 3 ∧ !inverts ∧ rd w = 31 then plain "tst" [greg (sf w) (rn w), src]
  else
    logicalRegNames[2 * opc + bits w 21 21]?.bind fun m =>
      plain m [greg (sf w) (rd w), greg (sf w) (rn w), src]

/-- Addition and subtraction of a shifted register. -/
def addSubShifted (w : UInt32) : Option Operation :=
  let amount := bits w 15 10
  let src := shiftedReg (sf w) (rm w) (bits w 23 22) amount
  if bits w 23 22 = 3 ∨ (!sf w ∧ 32 ≤ amount) then none
  else if bit w 29 ∧ rd w = 31 then
    plain (if bit w 30 then "cmp" else "cmn") [greg (sf w) (rn w), src]
  else if bit w 30 ∧ rn w = 31 then
    plain (if bit w 29 then "negs" else "neg") [greg (sf w) (rd w), src]
  else plain (addSubName w) [greg (sf w) (rd w), greg (sf w) (rn w), src]

/-- Addition and subtraction of an extended register. Beside the stack pointer the extension that
changes nothing is written as a left shift, and left out when the amount is zero. -/
def addSubExtended (w : UInt32) : Option Operation :=
  let option := bits w 15 13
  let amount := bits w 12 10
  let plainShift := (rd w = 31 ∨ rn w = 31) ∧ option = if sf w then 3 else 2
  let shift : Option Shift :=
    if plainShift then
      if amount = 0 then none else some { op := "lsl", amount := UInt8.ofNat amount }
    else some { op := extensionNames[option]?.getD "", amount := UInt8.ofNat amount }
  let src := Operand.register { name := generalName (sf w && option % 4 == 3) (rm w), shift }
  if 4 < amount ∨ bits w 23 22 ≠ 0 then none
  else if bit w 29 ∧ rd w = 31 then
    plain (if bit w 30 then "cmp" else "cmn") [sreg (sf w) (rn w), src]
  else
    let dest := if bit w 29 then greg (sf w) (rd w) else sreg (sf w) (rd w)
    plain (addSubName w) [dest, sreg (sf w) (rn w), src]

/-- Comparisons made only under a condition. -/
def conditionalCompare (w : UInt32) : Option Operation :=
  if !bit w 29 ∨ bit w 10 ∨ bit w 4 then none
  else
    let second := if bit w 11 then Operand.decimalImm (rm w) 5 else greg (sf w) (rm w)
    plain (if bit w 30 then "ccmp" else "ccmn")
      [greg (sf w) (rn w), second, .decimalImm (bits w 3 0) 4, conditionOperand (bits w 15 12)]

/-- The conditional selections. -/
def selectNames : Array String := #["csel", "csinc", "csinv", "csneg"]

/-- Selections under a condition, with the aliases that state the opposite condition. -/
def conditionalSelect (w : UInt32) : Option Operation :=
  let op := 2 * bits w 30 30 + bits w 10 10
  let c := bits w 15 12
  let dest := greg (sf w) (rd w)
  let src := greg (sf w) (rn w)
  let inverse := conditionOperand (opposite c)
  if bit w 29 ∨ bit w 11 then none
  else if c < 14 ∧ op = 1 ∧ rn w = 31 ∧ rm w = 31 then plain "cset" [dest, inverse]
  else if c < 14 ∧ op = 2 ∧ rn w = 31 ∧ rm w = 31 then plain "csetm" [dest, inverse]
  else if c < 14 ∧ op = 1 ∧ rn w = rm w ∧ rn w ≠ 31 then plain "cinc" [dest, src, inverse]
  else if c < 14 ∧ op = 2 ∧ rn w = rm w ∧ rn w ≠ 31 then plain "cinv" [dest, src, inverse]
  else if c < 14 ∧ op = 3 ∧ rn w = rm w then plain "cneg" [dest, src, inverse]
  else selectNames[op]?.bind fun m => plain m [dest, src, greg (sf w) (rm w), conditionOperand c]

/-- The operations with two sources. -/
def twoSourceName : Nat → Option String
  | 0x02 => some "udiv"
  | 0x03 => some "sdiv"
  | 0x08 => some "lsl"
  | 0x09 => some "lsr"
  | 0x0A => some "asr"
  | 0x0B => some "ror"
  | _ => none

/-- The operations with one source. -/
def oneSourceName (wide : Bool) : Nat → Option String
  | 0 => some "rbit"
  | 1 => some "rev16"
  | 2 => some (if wide then "rev32" else "rev")
  | 3 => if wide then some "rev" else none
  | 4 => some "clz"
  | 5 => some "cls"
  | _ => none

/-- Multiplication, with an addend unless it is the zero register. -/
def multiply (w : UInt32) : Option Operation :=
  let subtracts := bit w 15
  let long (stem : String) : Option Operation :=
    if ra w = 31 then
      plain (stem ++ if subtracts then "negl" else "ull")
        [greg true (rd w), greg false (rn w), greg false (rm w)]
    else
      plain (stem ++ if subtracts then "subl" else "addl")
        [greg true (rd w), greg false (rn w), greg false (rm w), greg true (ra w)]
  let high (m : String) : Option Operation :=
    if subtracts then none else plain m [greg true (rd w), greg true (rn w), greg true (rm w)]
  let sources := [greg (sf w) (rd w), greg (sf w) (rn w), greg (sf w) (rm w)]
  match bits w 23 21, sf w with
  | 0, _ =>
    if ra w = 31 then plain (if subtracts then "mneg" else "mul") sources
    else plain (if subtracts then "msub" else "madd") (sources ++ [greg (sf w) (ra w)])
  | 1, true => long "sm"
  | 5, true => long "um"
  | 2, true => high "smulh"
  | 6, true => high "umulh"
  | _, _ => none

/-- Data processing with registers. -/
def dataRegister (w : UInt32) : Option Operation :=
  let pair := [greg (sf w) (rd w), greg (sf w) (rn w)]
  match bits w 28 24 with
  | 0x0A => logicalReg w
  | 0x0B => if bit w 21 then addSubExtended w else addSubShifted w
  | 0x1A =>
    match bits w 23 21 with
    | 2 => conditionalCompare w
    | 4 => conditionalSelect w
    | 6 =>
      if !bit w 30 then
        (twoSourceName (bits w 15 10)).bind fun m => plain m (pair ++ [greg (sf w) (rm w)])
      else if bits w 20 16 = 0 then
        (oneSourceName (sf w) (bits w 15 10)).bind fun m => plain m pair
      else none
    | _ => none
  | 0x1B => multiply w
  | _ => none

end Disassembler.AArch64
