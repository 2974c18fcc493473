import Disassembler.Proofs.Addressing
import Disassembler.Proofs.Operands.AArch64
import Disassembler.Proofs.Operands.Mips
import Disassembler.Proofs.Operands.RiscV
import Disassembler.Proofs.Sections

/-!
# Code pointers are read where their address is known

A jump or a call through memory may lead somewhere that is known: if the address of its operand is,
the code pointer there can be read beforehand. Only on x86-64 and ARM do jumps go through memory that
is not based on a register. The slot that is read for one is the offset of its operand. So it is the
address of the operand, unless the segment begins elsewhere, as `fs` and `gs` do, or the offset has
more bits than addresses.
-/

namespace Disassembler

/-- What leads where a register says does not refer to a literal. -/
theorem AArch64.Says.absolute_of_indirect {op : Operation} (h : Says op)
    (hflow : op.flow = .indirect) : op.Absolute := by
  cases h with
  | absolute h => exact h
  | @leads m os kind _ hkind t =>
    have htarget : (Operation.withTarget m os kind t).flow.target? = some t := hkind t
    rw [hflow] at htarget
    cases htarget
  | literal => exact absurd hflow (by simp)
  | names h => exact absurd (h.flow.symm.trans hflow) (by simp)

/-! ## The slot of a jump -/

variable {m : Machine} {order : ByteOrder} {data : List UInt8} {a slot t : UInt64}
variable {image : Image} {o : MemoryOperand}

theorem Operand.codePointer?_eq_some {o : Operand} : o.codePointer? image m = some t
    ↔ ∃ place slot, o = .memory place ∧ place.slot? = some slot
      ∧ image.readPointer slot m.pointerSize = some t ∧ image.inCode t = true := by
  cases o with
  | memory place =>
    simp only [codePointer?, Option.bind_eq_bind, Option.bind_eq_some_iff]
    constructor
    · rintro ⟨slot, hslot, t', hread, ht⟩
      split at ht
      · rename_i hcode
        obtain rfl := Option.some.inj ht
        exact ⟨place, slot, rfl, hslot, hread, hcode⟩
      · cases ht
    · rintro ⟨_, slot, hplace, hslot, hread, hcode⟩
      obtain rfl := Operand.memory.inj hplace
      exact ⟨slot, hslot, t, hread, if_pos hcode⟩
  | _ => simp [codePointer?]

/-- A code pointer is read for a place in memory of a jump. -/
theorem Instruction.exists_of_codePointer? {i : Instruction} (h : i.codePointer? image m = some t) :
    i.flow = .indirect ∧ ∃ o slot, .memory o ∈ i.operands ∧ o.slot? = some slot
      ∧ image.readPointer slot m.pointerSize = some t ∧ image.inCode t = true := by
  unfold codePointer? at h
  split at h
  · rename_i hflow
    obtain ⟨o, ho, hread⟩ := List.exists_of_findSome?_eq_some h
    obtain ⟨place, slot, rfl, hslot⟩ := Operand.codePointer?_eq_some.mp hread
    exact ⟨hflow, place, slot, ho, hslot⟩
  · cases h

/-- A word of a machine on which all places in memory count from registers shows no slot. -/
theorem slot?_of_based {C : UInt32 → Prop} {operation : UInt32 → UInt64 → Option Operation}
    (h : ∀ w, Meets (C w) MemoryOperand.Based (operation w a))
    (ho : .memory o ∈ (decodeWord order operation data a).operands) : o.slot? = none := by
  obtain ⟨w, -, hbased, -⟩ := exists_meets_decodeWord h ho
  exact MemoryOperand.Based.slot?_eq_none hbased

/-- Nor does a jump of AArch64. -/
theorem AArch64.slot?_of_indirect (hflow : (decodeWord order decode data a).flow = .indirect)
    (ho : .memory o ∈ (decodeWord order decode data a).operands) : o.slot? = none := by
  obtain ⟨op, hop, hmem⟩ := Instruction.exists_of_mem_operands ho
  have hindirect : op.flow = .indirect := by
    rwa [Instruction.flow, Option.mem_def.mp hop] at hflow
  rw [operation_decodeWord_eq_bind] at hop
  obtain ⟨w, -, hop⟩ := Option.bind_eq_some_iff.mp hop
  have hnone : o.pcTarget = none :=
    ((allSay_decode w a op hop).absolute_of_indirect hindirect).operands _ hmem
  obtain ⟨hplaced, -⟩ : Placed w a o ∧ o.Legible := meets_decode op hop _ hmem
  rcases hplaced with hbased | ⟨-, -, -, hliteral⟩
  · exact MemoryOperand.Based.slot?_eq_none hbased
  · rw [hnone] at hliteral
    cases hliteral

/-! ## Segments -/

/-- The segment that an instruction of x86-64 overrides its own with, if it does, is one of the two
that need not begin at zero. -/
def Instruction.Displaced (m : Machine) (i : Instruction) : Prop :=
  m = .x86_64 ∧ (X86.lastAmong X86.segmentBytes (X86.prefixesOf i) = some 0x64
    ∨ X86.lastAmong X86.segmentBytes (X86.prefixesOf i) = some 0x65)

instance (m : Machine) (i : Instruction) : Decidable (i.Displaced m) :=
  inferInstanceAs (Decidable (_ ∧ (_ ∨ _)))

namespace X86

theorem segmentName_eq_fs_iff {b : UInt8} : Prefixes.segmentName b = some "fs" ↔ b = 0x64 := by
  unfold Prefixes.segmentName
  split <;> simp_all

theorem segmentName_eq_gs_iff {b : UInt8} : Prefixes.segmentName b = some "gs" ↔ b = 0x65 := by
  unfold Prefixes.segmentName
  split <;> simp_all

theorem segment_summary_ne_iff (ps : List UInt8) :
    (Prefixes.summary ps).segment ≠ some "fs" ∧ (Prefixes.summary ps).segment ≠ some "gs"
      ↔ ¬ (lastAmong segmentBytes ps = some 0x64 ∨ lastAmong segmentBytes ps = some 0x65) := by
  have hlast : (Prefixes.summary ps).segment
      = (lastAmong segmentBytes ps).bind Prefixes.segmentName := rfl
  simp only [hlast, ne_eq, Option.bind_eq_some_iff, segmentName_eq_fs_iff, segmentName_eq_gs_iff,
    exists_eq_right, not_or]

end X86

/-- **The slot of a jump.** It is the offset of an operand that says which segment is meant. -/
theorem knownAt_slot_of_indirect (hflow : (decode m order data a).flow = .indirect)
    (ho : .memory o ∈ (decode m order data a).operands) (hslot : o.slot? = some slot) :
    (m = .x86_64 ∨ m = .arm) ∧ o.KnownAt m (decode m order data a) slot
      ∧ (o.segment ≠ some "fs" ∧ o.segment ≠ some "gs" ↔ ¬ (decode m order data a).Displaced m) := by
  have hno : ∀ {p : Prop}, o.slot? = none → p := fun hnone => by
    rw [hnone] at hslot
    cases hslot
  cases m with
  | x86_64 =>
    have haccess := X86.isAccess_of_mem ho
    refine ⟨.inl rfl, haccess.knownAt_slot hslot, ?_⟩
    rw [haccess.segment_eq, X86.segment_summary_ne_iff, Instruction.Displaced, and_iff_right rfl]
    rfl
  | arm =>
    obtain ⟨w, -, hcounted, -⟩ := exists_meets_decodeWord (fun w => Arm.meets_decode) ho
    have haddress : (decodeWord order Arm.decode data a).address = a := address_decodeWord _ _ _ _
    refine ⟨.inr rfl, Arm.Counted.knownAt_slot (haddress.symm ▸ hcounted) hslot, ?_⟩
    rw [hcounted.2.1]
    simp [Instruction.Displaced]
  | aarch64 => exact hno (AArch64.slot?_of_indirect hflow ho)
  | riscv64 =>
    have hmeets : ∀ w, Meets False MemoryOperand.Based (RiscV.decode w a) := fun w =>
      RiscV.meets_decode
    exact hno (slot?_of_based hmeets ho)
  | mips => exact hno (slot?_of_based (fun w => Mips.meets_decode) ho)

/--
**Code pointers are read where their address is known.**

Let a code pointer be read for an instruction that some bytes decode to. Then the instruction jumps
indirectly, on x86-64 or on ARM, and the pointer leads into an executable section. It is read for an
operand in memory that uses no register but the program counter, in a slot that is the offset of the
operand: whatever the registers hold, the address of the operand is the start of its segment plus
the slot, reduced to 32 bits where addresses have 32. So the slot is that address whatever the
surroundings, if and only if the segment is neither `fs` nor `gs` and the slot has no more bits than
addresses.
-/
theorem code_pointer_slot (h : (decode m order data a).codePointer? image m = some t) :
    let i := decode m order data a
    i.flow = .indirect ∧ (m = .x86_64 ∨ m = .arm)
      ∧ (∃ s, image.sectionFor t = some s ∧ s.executable = true)
      ∧ ∃ o slot, .memory o ∈ i.operands ∧ image.readPointer slot m.pointerSize = some t
        ∧ (o.base = none ∨ ∃ name ∈ counterNames, o.base = some name) ∧ o.index = none
        ∧ (∀ s, i.effective m s o = s.start o.segment + i.reduced m slot)
        ∧ ((∀ s, i.effective m s o = slot) ↔ ¬ i.Displaced m ∧ (i.Short m → Is32 slot)) := by
  intro i
  obtain ⟨hflow, o, slot, ho, hslot, hread, hcode⟩ := Instruction.exists_of_codePointer? h
  obtain ⟨hmachine, hknown, hsegment⟩ := knownAt_slot_of_indirect hflow ho hslot
  refine ⟨hflow, hmachine, Image.inCode_iff.mp hcode, o, slot, ho, hread, hknown.base,
    hknown.index, hknown.effective_eq, ?_⟩
  rw [hknown.forall_effective_eq_iff, hsegment]

/-- An image with some code at `0x1000` and with a pointer to its `0x1010` at `0x3000`. -/
def tableImage (code : List UInt8) : Image where
  machine := some .x86_64
  order := .little
  entry := 0x1000
  sections := #[
    { name := Text.ofString ".text", start := 0x1000, size := 17
      permissions := { read := true, execute := true }, bytes := code.toArray },
    { name := Text.ofString ".data", start := 0x3000, size := 8, permissions := { read := true }
      bytes := #[0x10, 0x10, 0x00, 0x00, 0x00, 0x00, 0x00, 0x00] }]
  symbols := #[]

/-- A jump through the pointer at a distance from its end. -/
theorem code_pointer_slot_table :
    let code : List UInt8 := [0xFF, 0x25, 0xFA, 0x1F, 0x00, 0x00]
    let i := decode .x86_64 .little code 0x1000
    i.codePointer? (tableImage code) .x86_64 = some 0x1010
      ∧ ∃ o slot, .memory o ∈ i.operands
        ∧ (tableImage code).readPointer slot 8 = some 0x1010
        ∧ ∀ s, i.effective .x86_64 s o = slot := by
  intro code i
  have hread : i.codePointer? (tableImage code) .x86_64 = some 0x1010 := by decide +kernel
  obtain ⟨-, -, -, o, slot, ho, hslot, -, -, -, hiff⟩ := code_pointer_slot hread
  have hplain : ¬ i.Displaced .x86_64 := by decide +kernel
  have hwide : ¬ i.Short .x86_64 := by decide +kernel
  exact ⟨hread, o, slot, ho, hslot, hiff.mpr ⟨hplain, fun hshort => absurd hshort hwide⟩⟩

/-- **A jump through a pointer in `fs` is followed as if the segment began at zero.** -/
theorem code_pointer_slot_ignores_segment :
    let code : List UInt8 := [0x64, 0xFF, 0x25, 0xF9, 0x1F, 0x00, 0x00]
    let i := decode .x86_64 .little code 0x1000
    let o : MemoryOperand :=
      { base := some "rip", segment := some "fs", displacement := 0x1FF9, width := 32, size := 8
        pcTarget := some 0x3000 }
    i.flow = .indirect ∧ i.operands = [.memory o]
      ∧ i.codePointer? (tableImage code) .x86_64 = some 0x1010
      ∧ ∀ s, i.effective .x86_64 s o = s.fs + 0x3000 := by
  intro code i o
  have hflow : i.flow = .indirect := by decide +kernel
  have hoperands : i.operands = [.memory o] := by decide +kernel
  have hread : i.codePointer? (tableImage code) .x86_64 = some 0x1010 := by decide +kernel
  have ho : .memory o ∈ i.operands := hoperands ▸ List.mem_singleton_self _
  obtain ⟨-, hknown, -⟩ := knownAt_slot_of_indirect hflow ho rfl
  have hreduced : i.reduced .x86_64 0x3000 = 0x3000 := by decide +kernel
  refine ⟨hflow, hoperands, hread, fun s => ?_⟩
  rw [hknown.effective_eq, hreduced]
  rfl

end Disassembler
