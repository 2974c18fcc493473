import Disassembler.Proofs.Addressing

/-!
# Addresses behind an address-size prefix

A `67` makes the addresses of x86-64 short: offsets are reduced to 32 bits. Registers get the names
of their low halves then, and an address that is written out has four bytes. What is not reduced is
the address that an operand stands for. A displacement below zero leads out of the 32 bits, and so
may an instruction that lies above them.
-/

namespace Disassembler

/-! ## Addresses of 32 bits -/

theorem is32_ofInt_iff {d : Int} (hlow : -2 ^ 31 ≤ d) (hhigh : d < 2 ^ 32) :
    Is32 (UInt64.ofInt d) ↔ 0 ≤ d := by
  have hvalue := toNat_ofInt d
  rw [Is32]
  omega

theorem is32_moveBy_iff {b : UInt64} {d : Int} :
    Is32 (moveBy b d) ↔ (b.toNat + d) % 2 ^ 64 < 2 ^ 32 := by
  have hvalue := toNat_ofInt d
  rw [Is32, moveBy, UInt64.toNat_add]
  omega

namespace X86

variable {p : Prefixes} {stop t : UInt64} {o : MemoryOperand}

/-- A displacement as an address of 32 bits is written: in four bytes, with or without a sign. -/
def ShortDisplacement (d : Int) : Prop := ∃ v < 2 ^ 32, d = (v : Nat) ∨ d = signExtend 32 v

theorem ShortDisplacement.bounds {d : Int} (h : ShortDisplacement d) :
    -2 ^ 31 ≤ d ∧ d < 2 ^ 32 := by
  obtain ⟨v, hv, rfl | hsigned⟩ := h
  · omega
  · obtain ⟨hlow, hhigh⟩ := signExtend_bounds (n := 32) (by decide) v
    rw [← hsigned] at hlow hhigh
    omega

/-- **What an operand stands for behind the prefix.** It counts from the end of the instruction, or
it is absolute. -/
theorem IsAccess.short_slot (h : IsAccess p stop o) (hshort : p.addressSize = true)
    (hslot : o.slot? = some t) :
    (o.base = some "eip" ∧ (∃ v < 2 ^ 32, o.displacement = signExtend 32 v)
        ∧ t = moveBy stop o.displacement)
      ∨ o.base = none ∧ ShortDisplacement o.displacement ∧ t = UInt64.ofInt o.displacement := by
  cases h with
  | based _ _ _ hnone hwritten =>
    obtain ⟨⟨hbase, -⟩, rfl⟩ := (MemoryOperand.slot?_of_none hnone).mp hslot
    obtain ⟨v, hv, hd⟩ := hwritten hbase
    exact .inr ⟨hbase, ⟨v, hv, .inr hd⟩, rfl⟩
  | relative _ _ _ hbase hwritten htarget =>
    have hname : p.pointerName = "eip" := if_pos hshort
    obtain rfl : _ = t := Option.some.inj ((MemoryOperand.slot?_of_pcTarget htarget).symm.trans hslot)
    exact .inl ⟨hbase.trans (congrArg some hname), hwritten, rfl⟩
  | absolute _ _ hbase _ hnone hwritten =>
    obtain ⟨-, rfl⟩ := (MemoryOperand.slot?_of_none hnone).mp hslot
    obtain ⟨v, hv, hd⟩ := hwritten
    rw [if_pos hshort] at hv
    exact .inr ⟨hbase, ⟨v, hv, .inl hd⟩, rfl⟩

end X86

/--
**Behind an address-size prefix, addresses are not reduced to 32 bits.**

Let an instruction of x86-64 have a `67` among its prefixes, and an operand in memory that stands for
an address. Whatever the registers hold, the operand accesses memory at the low 32 bits of this
address, counted from the start of its segment. Either its base is `eip`, and the address is the end
of the instruction moved by the displacement: then it has 32 bits if the sum of the two does, modulo
`2 ^ 64`. Or the operand has neither a base nor an index: then the displacement is written in four
bytes, and the address has 32 bits if and only if the displacement is not below zero.
-/
theorem short_address_iff (order : ByteOrder) {data : List UInt8} {a : UInt64} {o : MemoryOperand}
    {t : UInt64} (hshort : 0x67 ∈ X86.prefixesOf (decode .x86_64 order data a))
    (ho : .memory o ∈ (decode .x86_64 order data a).operands) (hslot : o.slot? = some t) :
    let i := decode .x86_64 order data a
    (∀ s, i.effective .x86_64 s o = s.start o.segment + low32 t) ∧ o.index = none
      ∧ (o.base = some "eip" ∧ (∃ v < 2 ^ 32, o.displacement = signExtend 32 v)
          ∧ t = moveBy i.stop o.displacement
          ∧ (Is32 t ↔ (i.stop.toNat + o.displacement) % 2 ^ 64 < 2 ^ 32)
        ∨ o.base = none ∧ X86.ShortDisplacement o.displacement ∧ t = UInt64.ofInt o.displacement
          ∧ (Is32 t ↔ 0 ≤ o.displacement)) := by
  intro i
  have haccess := X86.isAccess_of_mem ho
  have hknown : o.KnownAt .x86_64 i t := haccess.knownAt_slot hslot
  have hreduced : i.reduced .x86_64 t = low32 t := if_pos (.inr ⟨rfl, hshort⟩)
  refine ⟨fun s => by rw [hknown.effective_eq, hreduced], hknown.index, ?_⟩
  have hsize : (X86.Prefixes.summary (X86.prefixesOf i)).addressSize = true := decide_eq_true hshort
  rcases haccess.short_slot hsize hslot with ⟨hbase, hwritten, rfl⟩ | ⟨hbase, hwritten, rfl⟩
  · exact .inl ⟨hbase, hwritten, rfl, is32_moveBy_iff⟩
  · exact .inr ⟨hbase, hwritten, rfl, is32_ofInt_iff hwritten.bounds.1 hwritten.bounds.2⟩

/-- A place at sixteen bytes behind the end has 32 bits. -/
theorem short_address_iff_behind :
    let i := decode .x86_64 .little [0x67, 0x8B, 0x05, 0x10, 0x00, 0x00, 0x00] 0x1000
    let o : MemoryOperand :=
      { base := some "eip", displacement := 16, width := 32, size := 4, pcTarget := some 0x1017 }
    0x67 ∈ X86.prefixesOf i ∧ .memory o ∈ i.operands ∧ o.slot? = some 0x1017 ∧ Is32 0x1017
      ∧ ∀ s, i.effective .x86_64 s o = s.start none + low32 0x1017 := by
  intro i o
  have hshort : 0x67 ∈ X86.prefixesOf i := by decide +kernel
  have ho : .memory o ∈ i.operands := by decide +kernel
  have hslot : o.slot? = some 0x1017 := rfl
  obtain ⟨haddress, -, ⟨-, -, -, hiff⟩ | ⟨hbase, -⟩⟩ := short_address_iff .little hshort ho hslot
  · exact ⟨hshort, ho, hslot, hiff.mpr (by decide +kernel), haddress⟩
  · exact absurd hbase (by decide)

/-- **Sixteen below zero, and nine below the end of an instruction at zero**, are shown with all
their 64 bits. -/
theorem short_address_not_reduced :
    (let i := decode .x86_64 .little [0x67, 0x8B, 0x04, 0x25, 0xF0, 0xFF, 0xFF, 0xFF] 0x1000
      let o : MemoryOperand := { displacement := -16, width := 32, size := 4 }
      0x67 ∈ X86.prefixesOf i ∧ .memory o ∈ i.operands
        ∧ o.slot? = some 0xFFFFFFFFFFFFFFF0 ∧ ¬ Is32 0xFFFFFFFFFFFFFFF0)
      ∧ (let i := decode .x86_64 .little [0x67, 0x8B, 0x05, 0xF0, 0xFF, 0xFF, 0xFF] 0
        let o : MemoryOperand :=
          { base := some "eip", displacement := -16, width := 32, size := 4
            pcTarget := some 0xFFFFFFFFFFFFFFF7 }
        0x67 ∈ X86.prefixesOf i ∧ .memory o ∈ i.operands
          ∧ o.slot? = some 0xFFFFFFFFFFFFFFF7 ∧ ¬ Is32 0xFFFFFFFFFFFFFFF7) := by
  constructor
  · refine ⟨by decide +kernel, by decide +kernel, by decide +kernel, ?_⟩
    exact Nat.not_lt_of_ge (by decide)
  · refine ⟨by decide +kernel, by decide +kernel, rfl, ?_⟩
    exact Nat.not_lt_of_ge (by decide)

end Disassembler
