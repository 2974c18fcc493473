import Disassembler.AArch64.Operand

/-!
# Loads and stores of AArch64

Transfers of one register, of two, exclusive and ordered ones, and loads of a literal near the
instruction. A base register 31 is the stack pointer.
-/

namespace Disassembler.AArch64

/-- A base register with a displacement. -/
def based (w : UInt32) : MemoryOperand := { base := stackName true (rn w) }

/-- A transfer of one register, apart from its address. -/
structure Transfer where
  /-- The verb of the mnemonic: load, store or prefetch. -/
  verb : String
  /-- The rest of the mnemonic. An offset that is not scaled puts a `u` before it. -/
  form : String
  operand : Operand
  /-- The number of bytes transferred is two to this power. -/
  scale : Nat
  prefetches : Bool := false

/-- The bytes transferred. -/
def Transfer.size (t : Transfer) : Nat := 1 <<< t.scale

/-- The mnemonic for a scaled offset. -/
def Transfer.scaledName (t : Transfer) : String := t.verb ++ t.form

/-- The mnemonic for an offset in bytes. -/
def Transfer.unscaledName (t : Transfer) : String := t.verb ++ "u" ++ t.form

/-- A transfer of a vector register, sixteen bytes when bit 23 is set. -/
def vectorTransfer (w : UInt32) : Option Transfer :=
  let verb := if bit w 22 then "ld" else "st"
  let size := bits w 31 30
  if bit w 23 then
    if size = 0 then some { verb, form := "r", operand := vreg 4 (rd w), scale := 4 } else none
  else some { verb, form := "r", operand := vreg size (rd w), scale := size }

/-- A transfer of a general register: stores, loads, and loads that extend the sign to 64 or to
32 bits. -/
def generalTransfer (w : UInt32) : Option Transfer :=
  let scale := bits w 31 30
  let transfer (verb form : String) (wide : Bool) : Option Transfer :=
    some { verb, form, operand := greg wide (rd w), scale }
  match scale, bits w 23 22 with
  | 0, 0 => transfer "st" "rb" false
  | 0, 1 => transfer "ld" "rb" false
  | 0, 2 => transfer "ld" "rsb" true
  | 0, 3 => transfer "ld" "rsb" false
  | 1, 0 => transfer "st" "rh" false
  | 1, 1 => transfer "ld" "rh" false
  | 1, 2 => transfer "ld" "rsh" true
  | 1, 3 => transfer "ld" "rsh" false
  | 2, 0 => transfer "st" "r" false
  | 2, 1 => transfer "ld" "r" false
  | 2, 2 => transfer "ld" "rsw" true
  | 3, 0 => transfer "st" "r" true
  | 3, 1 => transfer "ld" "r" true
  | 3, 2 =>
    some { verb := "prf", form := "m", operand := .hexImm (rd w) 5, scale, prefetches := true }
  | _, _ => none

/-- The transfer that the size, vector and opcode fields encode. -/
def transfer (w : UInt32) : Option Transfer :=
  if bit w 26 then vectorTransfer w else generalTransfer w

/-- A load of a literal at an offset in words from the instruction. -/
def literal (w : UInt32) (addr : UInt64) : Option Operation :=
  let place (size : UInt8) : Operand :=
    .memory { size, pcTarget := some (moveBy addr (4 * signExtend 19 (bits w 23 5))) }
  match bit w 26, bits w 31 30 with
  | true, 0 => plain "ldr" [vreg 2 (rd w), place 4]
  | true, 1 => plain "ldr" [vreg 3 (rd w), place 8]
  | true, 2 => plain "ldr" [vreg 4 (rd w), place 16]
  | false, 0 => plain "ldr" [greg false (rd w), place 4]
  | false, 1 => plain "ldr" [greg true (rd w), place 8]
  | false, 2 => plain "ldrsw" [greg true (rd w), place 4]
  | false, 3 => plain "prfm" [.hexImm (rd w) 5, place 0]
  | _, _ => none

/-- When the offset of a pair is added to its base. -/
def pairMode : Nat → IndexMode
  | 1 => .postIndexed
  | 3 => .preIndexed
  | _ => .offset

/-- A transfer of two registers. -/
def pair (w : UInt32) : Option Operation :=
  let kind := bits w 24 23
  let load := bit w 22
  let transfer (m : String) (reg : Nat → Operand) (scale : Nat) : Option Operation :=
    plain m [reg (rd w), reg (ra w),
      .memory { based w with
        displacement := (1 <<< scale : Nat) * signExtend 7 (bits w 21 15)
        width := 7, signed := true, size := UInt8.ofNat (2 <<< scale), mode := pairMode kind }]
  let name := (if load then "ld" else "st") ++ (if kind = 0 then "np" else "p")
  match bit w 26, bits w 31 30 with
  | true, 0 => transfer name (vreg 2) 2
  | true, 1 => transfer name (vreg 3) 3
  | true, 2 => transfer name (vreg 4) 4
  | false, 0 => transfer name (greg false) 2
  | false, 1 => if load ∧ kind ≠ 0 then transfer "ldpsw" (greg true) 2 else none
  | false, 2 => transfer name (greg true) 3
  | _, _ => none

/-- The endings of the exclusive and ordered transfers, by size. -/
def orderedEndings : Array String := #["b", "h", "", ""]

/-- Exclusive transfers, and those with acquire or release order. -/
def ordered (w : UInt32) : Option Operation := do
  let scale := bits w 31 30
  let ending ← orderedEndings[scale]?
  let reg := greg (scale = 3) (rd w)
  let place := Operand.memory { based w with size := UInt8.ofNat (1 <<< scale) }
  match bit w 21, bit w 23, bit w 22, bit w 15 with
  | false, false, true, o => plain ((if o then "ldaxr" else "ldxr") ++ ending) [reg, place]
  | false, false, false, o =>
    plain ((if o then "stlxr" else "stxr") ++ ending) [greg false (rm w), reg, place]
  | false, true, load, true => plain ((if load then "ldar" else "stlr") ++ ending) [reg, place]
  | _, _, _, _ => none

/-- A transfer at an unsigned offset in units of its size. -/
def unsignedOffset (w : UInt32) : Option Operation := do
  let t ← transfer w
  plain t.scaledName [t.operand,
    .memory { based w with displacement := (bits w 21 10 * t.size : Nat), width := 12
                           size := UInt8.ofNat t.size }]

/-- A transfer at an index register that may be extended and scaled. -/
def registerOffset (w : UInt32) : Option Operation := do
  let t ← transfer w
  let option := bits w 15 13
  let scaled := bit w 12
  let amount := if scaled then UInt8.ofNat t.scale else 0
  let shift : Option Shift :=
    if option = 3 then if scaled then some { op := "lsl", amount } else none
    else some { op := extensionNames[option]?.getD "", amount }
  if option / 2 % 2 = 0 then none
  else
    plain t.scaledName [t.operand,
      .memory { based w with index := generalName (option % 2 = 1) (rm w), shift
                             size := UInt8.ofNat t.size }]

/-- A transfer at a signed offset in bytes, which may also be added to the base. -/
def signedOffset (w : UInt32) : Option Operation := do
  let t ← transfer w
  let place (mode : IndexMode) : Operand :=
    .memory { based w with displacement := signExtend 9 (bits w 20 12), width := 9, signed := true
                           size := UInt8.ofNat t.size, mode }
  match bits w 11 10 with
  | 0 => plain t.unscaledName [t.operand, place .offset]
  | 1 => if t.prefetches then none else plain t.scaledName [t.operand, place .postIndexed]
  | 3 => if t.prefetches then none else plain t.scaledName [t.operand, place .preIndexed]
  | _ => none

/-- Loads and stores. -/
def loadStore (w : UInt32) (addr : UInt64) : Option Operation :=
  match bits w 29 27, bits w 25 24 with
  | 3, 0 => literal w addr
  | 5, 0 | 5, 1 => pair w
  | 1, 0 => if bit w 26 then none else ordered w
  | 7, 1 => unsignedOffset w
  | 7, 0 =>
    if !bit w 21 then signedOffset w
    else if bits w 11 10 = 2 then registerOffset w
    else none
  | _, _ => none

end Disassembler.AArch64
