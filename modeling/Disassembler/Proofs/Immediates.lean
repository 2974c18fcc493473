import Disassembler.Proofs.Operands.AArch64
import Disassembler.Proofs.Operands.Arm
import Disassembler.Proofs.Operands.Mips
import Disassembler.Proofs.Operands.RiscV
import Disassembler.Proofs.Operands.X86

/-!
# Numbers keep the width and the sign that they were encoded with

A number is shown with the bits of its field. What is shown need not be the field itself: a count of
bits may be encoded as one less, or all bits as zero. Then all bits are one too many for the field.
Four encodings have such a count and can reach it; every other number on every machine fits its field.
-/

namespace Disassembler

/-- A word that counts all bits of a register. -/
def Machine.CountsAll : Machine → UInt32 → Prop
  | .arm, w => Arm.CountsAll w
  | .aarch64, w => AArch64.CountsAll w
  | .mips, w => Mips.CountsAll w
  | .x86_64, _ | .riscv64, _ => False

/-- The bytes begin with a word that counts all bits of a register. -/
def CountsAll (m : Machine) (order : ByteOrder) (data : List UInt8) : Prop :=
  ∃ w, order.word? data = some w ∧ m.CountsAll w

variable {m : Machine} {order : ByteOrder} {data : List UInt8} {a : UInt64} {n : ImmediateOperand}

/-- A number of a machine with words fits its field, unless its word counts all bits. -/
theorem fitsUnless_decodeWord {C : UInt32 → Prop} {M : UInt32 → MemoryOperand → Prop}
    {operation : UInt32 → UInt64 → Option Operation} (h : ∀ w, Meets (C w) (M w) (operation w a))
    (hn : .immediate n ∈ (decodeWord order operation data a).operands) :
    n.FitsUnless (∃ w, order.word? data = some w ∧ C w) := by
  obtain ⟨w, hw, hmeets⟩ := exists_meets_decodeWord h hn
  exact hmeets.imp_right fun hexceeds => ⟨⟨w, hw, hexceeds.1⟩, hexceeds.2⟩

/-- **A number fits its field**, unless it is a count of all bits. -/
theorem fitsUnless_decode (hn : .immediate n ∈ (decode m order data a).operands) :
    n.FitsUnless (CountsAll m order data) := by
  cases m with
  | x86_64 => exact .inl (X86.fits_decode hn)
  | arm => exact fitsUnless_decodeWord (fun w => Arm.meets_decode) hn
  | aarch64 => exact fitsUnless_decodeWord (fun w => AArch64.meets_decode) hn
  | mips => exact fitsUnless_decodeWord (fun w => Mips.meets_decode) hn
  | riscv64 =>
    have hmeets : ∀ w, Meets False MemoryOperand.Based (RiscV.decode w a) := fun w =>
      RiscV.meets_decode
    rcases fitsUnless_decodeWord hmeets hn with hfits | ⟨⟨w, -, hfalse⟩, -⟩
    · exact .inl hfits
    · exact hfalse.elim

/-- **A count of all bits does not fit.** -/
theorem exists_not_fits (h : CountsAll m order data) (a : UInt64) :
    ∃ n, .immediate n ∈ (decode m order data a).operands ∧ ¬ n.Fits := by
  obtain ⟨w, hw, hcounts⟩ := h
  have hshown : ∀ {operation : UInt32 → UInt64 → Option Operation} {k : UInt8}, k.toNat < 64 →
      (∃ op ∈ operation w a, ∃ n, .immediate n ∈ op.operands ∧ n.Exceeds ∧ n.width = k) →
      ∃ n, .immediate n ∈ (decodeWord order operation data a).operands ∧ ¬ n.Fits := by
    rintro operation k hk ⟨op, hop, n, hn, hexceeds, rfl⟩
    refine ⟨n, Instruction.mem_operands_of_mem ?_ hn, hexceeds.not_fits hk⟩
    rw [operation_decodeWord_eq_bind, hw]
    exact hop
  cases m with
  | arm => exact hshown (by decide) (Arm.exists_exceeds hcounts a)
  | aarch64 => exact hshown (by decide) (AArch64.exists_exceeds hcounts a)
  | mips => exact hshown (by decide) (Mips.exists_exceeds hcounts a)
  | x86_64 => exact hcounts.elim
  | riscv64 => exact hcounts.elim

/--
**Numbers keep the width and the sign that they were encoded with.**

Whatever the machine, its byte order, the bytes and the address, a number that an instruction shows
is one of those that its field can hold, with as many bits as the field has and a sign if it has one.
This fails for four encodings and for one value of each: a bit field of 32 bits that MIPS extracts or
inserts, the move of a register of ARM that is shifted right by 32, and the bit field of 64 bits that
`bfxil` of AArch64 moves. That number is the first one that the field cannot hold.
-/
theorem numbers_fit_iff (m : Machine) (order : ByteOrder) (data : List UInt8) (a : UInt64) :
    let i := decode m order data a
    (∀ n, .immediate n ∈ i.operands → n.Fits ∨ CountsAll m order data ∧ n.Exceeds)
      ∧ ((∀ n, .immediate n ∈ i.operands → n.Fits) ↔ ¬ CountsAll m order data) := by
  intro i
  refine ⟨fun n hn => fitsUnless_decode hn, fun hfits hcounts => ?_, fun hcounts n hn => ?_⟩
  · obtain ⟨n, hn, hnot⟩ := exists_not_fits hcounts a
    exact hnot (hfits n hn)
  · exact (fitsUnless_decode hn).resolve_right fun hexceeds => hcounts hexceeds.1

/-- **A whole register as a bit field is shown as 32 in five bits**, and as 64 in six; and so is a
shift by 32. -/
theorem whole_register_not_fit :
    (∃ n, .immediate n ∈ (decode .mips .little [0x00, 0xF8, 0x28, 0x7D] 0x400000).operands
        ∧ n.value = 32 ∧ n.width = 5 ∧ ¬ n.Fits)
      ∧ (∃ n, .immediate n ∈ (decode .arm .little [0x21, 0x00, 0xA0, 0xE1] 0x8000).operands
        ∧ n.value = 32 ∧ n.width = 5 ∧ ¬ n.Fits)
      ∧ ∃ n, .immediate n ∈ (decode .aarch64 .little [0x20, 0xFC, 0x40, 0xB3] 0x1000).operands
        ∧ n.value = 64 ∧ n.width = 6 ∧ ¬ n.Fits := by
  refine ⟨⟨{ value := 32, width := 5 }, ?_, rfl, rfl, by decide⟩,
    ⟨{ value := 32, width := 5 }, ?_, rfl, rfl, by decide⟩,
    { value := 64, width := 6 }, ?_, rfl, rfl, by decide⟩
  · decide +kernel
  · decide +kernel
  · decide +kernel

end Disassembler
