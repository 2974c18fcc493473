/-!
# Instruction words

Bit fields of a 32-bit word, read as numbers, and the two conversions every decoder needs: the
sign extension of a field, and the displacement of an address by a signed offset. Fields are
shifts and remainders of numbers, so that linear arithmetic decides facts about them.
-/

namespace Disassembler

/-- Bits `hi` down to `lo` of a word. -/
def bits (w : UInt32) (hi lo : Nat) : Nat := w.toNat >>> lo % 1 <<< (hi + 1 - lo)

/-- One bit of a word. -/
def bit (w : UInt32) (i : Nat) : Bool := bits w i i == 1

/-- A number below `2 ^ n` read as an `n`-bit two's complement integer. -/
def signExtend (n : Nat) (v : Nat) : Int := (v : Int).bmod (1 <<< n)

/-- An address moved by a signed offset, modulo `2 ^ 64`. -/
def moveBy (a : UInt64) (d : Int) : UInt64 := a + UInt64.ofInt d

/-- An address reduced modulo `2 ^ 32`. -/
def low32 (a : UInt64) : UInt64 := UInt64.ofNat (a.toNat % 1 <<< 32)

/-- The order in which the bytes of a word lie in memory. -/
inductive ByteOrder where
  | little
  | big
  deriving DecidableEq, Inhabited

/-- The number whose bytes, least significant first, are given. -/
def littleEndian (bs : List UInt8) : Nat := bs.foldr (fun b n => b.toNat + 256 * n) 0

/-- The number whose bytes are given in the stated order. -/
def ByteOrder.value : ByteOrder → List UInt8 → Nat
  | .little, bs => littleEndian bs
  | .big, bs => littleEndian bs.reverse

/-- The first four bytes as a word; nothing when there are fewer. -/
def ByteOrder.word? (order : ByteOrder) : List UInt8 → Option UInt32
  | a :: b :: c :: d :: _ => some (UInt32.ofNat (order.value [a, b, c, d]))
  | _ => none

/-- A field is below two to the number of its bits. -/
theorem bits_lt (w : UInt32) (hi lo : Nat) : bits w hi lo < 1 <<< (hi + 1 - lo) :=
  Nat.mod_lt _ (Nat.one_shiftLeft _ ▸ Nat.two_pow_pos _)

end Disassembler
