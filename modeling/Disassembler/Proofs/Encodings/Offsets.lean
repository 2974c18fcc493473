import Disassembler.Proofs.Delimiting
import Disassembler.Proofs.Encodings.AArch64
import Disassembler.Proofs.Encodings.Arm
import Disassembler.Proofs.Encodings.Mips
import Disassembler.Proofs.Encodings.RiscV
import Disassembler.Proofs.Position

/-!
# Offsets on all machines of words

An assembler puts an offset into a word, the decoder takes it out and adds it to the address. Here
both ends are put together: whatever the encoding, its other fields, the offset and the address, what
is decoded is the address that was meant. The machines of 32 bits wrap at their own width.
-/

namespace Disassembler

/-! ## Addresses as numbers -/

theorem moveBy_eq_ofInt (a : UInt64) (d : Int) :
    moveBy a d = UInt64.ofInt ((a.toNat + d) % ((2 ^ 64 : Nat) : Int)) := by
  have hd := toNat_ofInt d
  refine UInt64.toNat_inj.mp (Int.ofNat_inj.mp ?_)
  rw [toNat_ofInt, moveBy, UInt64.toNat_add]
  omega

theorem low32_moveBy_eq_ofInt (a k : UInt64) (d : Int) :
    low32 (moveBy (a + k) d)
      = UInt64.ofInt ((a.toNat + k.toNat + d) % ((2 ^ 32 : Nat) : Int)) := by
  have hd := toNat_ofInt d
  refine UInt64.toNat_inj.mp (Int.ofNat_inj.mp ?_)
  rw [toNat_ofInt, low32_toNat, moveBy, UInt64.toNat_add, UInt64.toNat_add]
  omega

/-! ## Encodings of any machine -/

/-- An instruction with an offset, on a machine whose encodings are words. -/
inductive RelativeEncoding where
  | riscv64 (e : RiscV.Relative)
  | aarch64 (e : AArch64.Relative)
  | arm (e : Arm.Relative)
  | mips (e : Mips.Relative)

namespace RelativeEncoding

/-- The machine. -/
def machine : RelativeEncoding → Machine
  | riscv64 _ => .riscv64
  | aarch64 _ => .aarch64
  | arm _ => .arm
  | mips _ => .mips

/-- The offsets that can be encoded. -/
def Encodes (o : Int) : RelativeEncoding → Prop
  | riscv64 e => e.Encodes o
  | aarch64 e => e.Encodes o
  | arm e => e.Encodes o
  | mips _ => Reaches 17 2 o

/-- The bytes of the word with an offset. Words of RISC-V do not depend on the byte order. -/
def bytes (order : ByteOrder) (o : Int) : RelativeEncoding → List UInt8
  | riscv64 e => ByteOrder.little.bytes (e.word o)
  | aarch64 e => order.bytes (e.word o)
  | arm e => order.bytes (e.word o)
  | mips e => order.bytes (e.word o)

/-- Where the offset counts from: the instruction, its page of 4096 bytes, what the program counter
reads as, or the delay slot. -/
def origin (a : UInt64) : RelativeEncoding → Int
  | aarch64 (.page _) => (a.toNat / 4096 * 4096 : Nat)
  | riscv64 _ | aarch64 _ => a.toNat
  | arm _ => a.toNat + 8
  | mips _ => a.toNat + 4

/-- The address that is meant, in the width of the addresses of the machine. -/
def target (o : Int) (a : UInt64) (e : RelativeEncoding) : UInt64 :=
  UInt64.ofInt ((e.origin a + o) % ((2 ^ (8 * e.machine.pointerSize) : Nat) : Int))

/-- Does control go there? -/
def transfers : RelativeEncoding → Bool
  | riscv64 _ | mips _ => true
  | aarch64 e => e.transfers
  | arm e => e.transfers

/-- Is it a preload of ARM? -/
def preloads : RelativeEncoding → Bool
  | arm e => e.preloads
  | riscv64 _ | aarch64 _ | mips _ => false

end RelativeEncoding

theorem AArch64.moveBy_origin (e : Relative) (a : UInt64) (o : Int) :
    moveBy (e.origin a) o = (RelativeEncoding.aarch64 e).target o a := by
  cases e with
  | page rd =>
    have hlt : a.toNat >>> 12 <<< 12 < 2 ^ 64 := by
      have ha := a.toNat_lt
      omega
    have hpage : (UInt64.ofNat (a.toNat >>> 12 <<< 12)).toNat = a.toNat / 4096 * 4096 := by
      rw [UInt64.toNat_ofNat_of_lt' hlt]
      omega
    rw [Relative.origin, moveBy_eq_ofInt, hpage]
    rfl
  | _ => exact moveBy_eq_ofInt a o

theorem Arm.relativeTarget_eq (e : Relative) (a : UInt64) (o : Int) :
    relativeTarget a o = (RelativeEncoding.arm e).target o a :=
  low32_moveBy_eq_ofInt a 8 o

theorem Mips.low32_moveBy_eq (e : Relative) (a : UInt64) (o : Int) :
    low32 (moveBy (a + 4) o) = (RelativeEncoding.mips e).target o a :=
  low32_moveBy_eq_ofInt a 4 o

theorem operation_decodeWord (order : ByteOrder) (operation : UInt32 → UInt64 → Option Operation)
    (w : UInt32) (rest : List UInt8) (a : UInt64) :
    (decodeWord order operation (order.bytes w ++ rest) a).operation = operation w a := by
  rw [decodeWord_of_word? (order.word?_bytes_append w rest)]

/--
**Offsets are decoded as they were encoded.** For every jump and branch of RISC-V that is relative,
every relative encoding of AArch64 and ARM and every branch of MIPS, with any registers, conditions
and other fields, every offset that it can hold, every address and byte order, and whatever lies
behind: the bytes of its word decode to a valid instruction. Control goes to the address that is
meant if the encoding transfers control, and has no target otherwise. That address is the only one
that the operands stand for. The preloads of ARM are an exception: their operand is the program
counter displaced by the offset, like that of the loads, but it does not say which address that is.
-/
theorem decode_relative (e : RelativeEncoding) {o : Int} (h : e.Encodes o) (order : ByteOrder)
    (rest : List UInt8) (a : UInt64) :
    Refers (decode e.machine order (e.bytes order o ++ rest) a).operation
      (if e.transfers then some (e.target o a) else none)
      (if e.preloads then [] else [e.target o a]) := by
  cases e with
  | riscv64 e =>
    have hrefers := RiscV.refers_decode e h a
    rw [moveBy_eq_ofInt] at hrefers
    exact (operation_decodeWord .little RiscV.decode (e.word o) rest a).symm ▸ hrefers
  | aarch64 e =>
    have hrefers := AArch64.refers_decode e h a
    rw [AArch64.moveBy_origin] at hrefers
    exact (operation_decodeWord order AArch64.decode (e.word o) rest a).symm ▸ hrefers
  | arm e =>
    have hrefers := Arm.refers_decode e h a
    rw [Arm.relativeTarget_eq e] at hrefers
    exact (operation_decodeWord order Arm.decode (e.word o) rest a).symm ▸ hrefers
  | mips e =>
    have hrefers := Mips.refers_decode e h a
    rw [Mips.low32_moveBy_eq e] at hrefers
    exact (operation_decodeWord order Mips.decode (e.word o) rest a).symm ▸ hrefers

/-- A branch of ARM with a change of the instruction set, back by three half words: the half word is
in a field of its own. -/
theorem decode_relative_half :
    let e := RelativeEncoding.arm .exchange
    e.Encodes (-6) ∧ e.bytes .big (-6) = [0xFB, 0xFF, 0xFF, 0xFE] ∧ e.target (-6) 0x8000 = 0x8002
      ∧ Refers (decode .arm .big (e.bytes .big (-6) ++ []) 0x8000).operation (some 0x8002)
        [0x8002] := by
  intro e
  have hencodes : e.Encodes (-6) := ⟨rfl, by decide, by decide⟩
  have htarget : e.target (-6) 0x8000 = 0x8002 := by decide +kernel
  refine ⟨hencodes, by decide +kernel, htarget, ?_⟩
  rw [← htarget]
  exact decode_relative e hencodes .big [] 0x8000

/-- Not every encoding says to which address it refers: `pld [pc, #8]` does not. -/
theorem preload_refers_to_nothing :
    ¬ ∀ (e : RelativeEncoding) (o : Int), e.Encodes o →
      ∀ (order : ByteOrder) (rest : List UInt8) (a : UInt64),
        Refers (decode e.machine order (e.bytes order o ++ rest) a).operation
          (if e.transfers then some (e.target o a) else none) [e.target o a] := by
  intro h
  obtain ⟨op, hop, hrefers⟩ :=
    h (.arm (.preload true)) 8 ⟨by decide, by decide⟩ .little [] 0x8000
  have hbytes : (RelativeEncoding.arm (.preload true)).bytes .little 8 ++ []
      = [0x08, 0xF0, 0xDF, 0xF5] := by decide +kernel
  rw [hbytes] at hop
  have hdecoded : (decode .arm .little [0x08, 0xF0, 0xDF, 0xF5] 0x8000).operation
      = some { mnemonic := "pld"
               operands := [.memory { base := some "pc", displacement := 8, width := 12 }] } := by
    decide +kernel
  obtain rfl := Option.some.inj (hdecoded.symm.trans hop)
  exact absurd hrefers.operands (by decide)

end Disassembler
