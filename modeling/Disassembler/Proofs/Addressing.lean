import Disassembler.Proofs.Operands.Arm
import Disassembler.Proofs.Operands.X86
import Disassembler.Proofs.Position
import Disassembler.Sweep

/-!
# Where operands access memory

The address at which an operand accesses memory is made of what registers hold, of the displacement,
and of the start of a segment; where addresses have 32 bits, the offset in the segment is reduced to
them. Most of this is known only when the instruction is executed. What is known before that is the
offset of an operand that uses no register but the program counter, up to this reduction.
-/

namespace Disassembler

/-- What an address depends on beside the instruction. -/
structure Surroundings where
  /-- What the registers hold. -/
  register : String → UInt64
  /-- What the index of an operand adds: scaled, shifted, extended or negated as the operand says. -/
  index : MemoryOperand → UInt64
  /-- Where the segment `fs` begins. -/
  fs : UInt64
  /-- Where the segment `gs` begins. -/
  gs : UInt64

/-- Where a segment begins. All but two begin at zero. -/
def Surroundings.start (s : Surroundings) : Option String → UInt64
  | some "fs" => s.fs
  | some "gs" => s.gs
  | _ => 0

/-- The names of the program counter in addresses. -/
def counterNames : List String := ["rip", "eip", "pc"]

namespace Instruction

variable (m : Machine) (i : Instruction)

/-- The program counter in addresses. For ARM it is two words ahead, and for x86-64 it is at the end
of the instruction. -/
def counter : UInt64 := if m = .arm then i.address + 8 else i.stop

/-- Do addresses have 32 bits? So they do on machines of 32 bits, and behind a `67`. -/
def Short : Prop := m.pointerSize = 4 ∨ m = .x86_64 ∧ 0x67 ∈ X86.prefixesOf i

instance : Decidable (i.Short m) := inferInstanceAs (Decidable (_ ∨ _ ∧ _))

/-- An offset with the bits that addresses have. -/
def reduced (a : UInt64) : UInt64 := if i.Short m then low32 a else a

/-- The offset of an operand in its segment, before it is reduced. A displacement that is added later
does not count, and no literal of AArch64 is meant, whose offset is not shown. -/
def offset (s : Surroundings) (o : MemoryOperand) : UInt64 :=
  let base := match o.base with
    | none => 0
    | some name => if name ∈ counterNames then i.counter m else s.register name
  let index := if o.index = none then 0 else s.index o
  if o.mode = .postIndexed then base else moveBy (base + index) o.displacement

/-- The address at which an operand accesses memory. -/
def effective (s : Surroundings) (o : MemoryOperand) : UInt64 :=
  s.start o.segment + i.reduced m (i.offset m s o)

end Instruction

/-! ## Offsets that are known -/

/-- The operand uses no register but the program counter, and `a` is its offset, which may be reduced
already. -/
structure MemoryOperand.KnownAt (o : MemoryOperand) (m : Machine) (i : Instruction) (a : UInt64) :
    Prop where
  base : o.base = none ∨ ∃ name ∈ counterNames, o.base = some name
  index : o.index = none
  offset : ∀ s, i.reduced m (i.offset m s o) = i.reduced m a

variable {m : Machine} {i : Instruction} {o : MemoryOperand} {a : UInt64}

namespace Surroundings

/-- Surroundings in which every register is zero, and two segments begin where they are told. -/
def segmented (a : UInt64) : Surroundings where
  register := fun _ => 0
  index := fun _ => 0
  fs := a
  gs := a

/-- A segment begins at a known address if and only if it is none of the two. -/
theorem forall_start_add_eq_iff {segment : Option String} {a b : UInt64} :
    (∀ s : Surroundings, s.start segment + a = b)
      ↔ (segment ≠ some "fs" ∧ segment ≠ some "gs") ∧ a = b := by
  constructor
  · intro h
    have hzero := h (segmented 0)
    have hone := h (segmented 1)
    have hstart : (segmented 0).start segment = 0 := by
      unfold start
      split <;> rfl
    have heq : a = b := by rwa [hstart, UInt64.zero_add] at hzero
    have hnot : (segmented 1).start segment ≠ 1 := fun hbase => by
      rw [hbase, ← heq] at hone
      exact absurd (UInt64.add_eq_right.mp hone) (by decide)
    refine ⟨⟨?_, ?_⟩, heq⟩
    · rintro rfl
      exact hnot rfl
    · rintro rfl
      exact hnot rfl
  · rintro ⟨⟨hfs, hgs⟩, rfl⟩ s
    have hstart : s.start segment = 0 := by
      unfold start
      split
      · exact absurd rfl hfs
      · exact absurd rfl hgs
      · rfl
    rw [hstart, UInt64.zero_add]

end Surroundings

theorem low32_eq_self_iff : low32 a = a ↔ Is32 a := by
  rw [← UInt64.toNat_inj, low32_toNat, Is32]
  exact Nat.mod_eq_iff_lt (by decide)

theorem low32_low32 : low32 (low32 a) = low32 a := low32_eq_self_iff.mpr (is32_low32 a)

theorem Instruction.reduced_eq_self_iff : i.reduced m a = a ↔ (i.Short m → Is32 a) := by
  unfold reduced
  split
  · rename_i hshort
    exact low32_eq_self_iff.trans ⟨fun h _ => h, fun h => h hshort⟩
  · rename_i hwide
    exact iff_of_true rfl fun hshort => absurd hshort hwide

namespace MemoryOperand.KnownAt

/-- What a known offset leaves open is the start of the segment. -/
theorem effective_eq (h : o.KnownAt m i a) (s : Surroundings) :
    i.effective m s o = s.start o.segment + i.reduced m a := by
  rw [Instruction.effective, h.offset s]

/-- An address is known if and only if the segment begins at zero and the offset is reduced. -/
theorem forall_effective_eq_iff (h : o.KnownAt m i a) : (∀ s, i.effective m s o = a)
    ↔ (o.segment ≠ some "fs" ∧ o.segment ≠ some "gs") ∧ (i.Short m → Is32 a) := by
  simp only [h.effective_eq, Surroundings.forall_start_add_eq_iff, Instruction.reduced_eq_self_iff]

/-- An operand without registers. -/
theorem of_none (hbase : o.base = none) (hindex : o.index = none) (hoffset : o.mode = .offset) :
    o.KnownAt m i (UInt64.ofInt o.displacement) := by
  refine ⟨.inl hbase, hindex, fun s => ?_⟩
  simp [Instruction.offset, hbase, hindex, hoffset, moveBy]

/-- An operand with the program counter. -/
theorem of_counter (name : String) (hname : name ∈ counterNames) (hbase : o.base = some name)
    (hindex : o.index = none) (hoffset : o.mode = .offset)
    (ha : i.reduced m (moveBy (i.counter m) o.displacement) = i.reduced m a) :
    o.KnownAt m i a := by
  refine ⟨.inr ⟨name, hname, hbase⟩, hindex, fun s => ?_⟩
  simp [Instruction.offset, hbase, hname, hindex, hoffset, ha]

end MemoryOperand.KnownAt

/-! ## Slots -/

theorem MemoryOperand.slot?_of_pcTarget {t : UInt64} (h : o.pcTarget = some t) :
    o.slot? = some t := by
  rw [slot?, h]

theorem MemoryOperand.slot?_of_none (h : o.pcTarget = none) :
    o.slot? = some a ↔ (o.base = none ∧ o.index = none) ∧ UInt64.ofInt o.displacement = a := by
  simp [slot?, h]

/-- A place that counts from a register has no slot. -/
theorem MemoryOperand.Based.slot?_eq_none (h : o.Based) : o.slot? = none := by
  obtain ⟨hbase, hnone⟩ := h
  obtain ⟨name, hname⟩ := Option.isSome_iff_exists.mp hbase
  simp [slot?, hnone, hname]

/-- **On x86-64 a slot is the offset of its operand.** -/
theorem X86.IsAccess.knownAt_slot {p : Prefixes} (h : IsAccess p i.stop o) (hslot : o.slot? = some a) :
    o.KnownAt .x86_64 i a := by
  cases h with
  | based _ hoffset _ hnone =>
    obtain ⟨⟨hbase, hindex⟩, rfl⟩ := (MemoryOperand.slot?_of_none hnone).mp hslot
    exact .of_none hbase hindex hoffset
  | absolute _ hoffset _ _ hnone =>
    obtain ⟨⟨hbase, hindex⟩, rfl⟩ := (MemoryOperand.slot?_of_none hnone).mp hslot
    exact .of_none hbase hindex hoffset
  | relative _ hoffset hindex hbase _ htarget =>
    obtain rfl : _ = a := Option.some.inj ((MemoryOperand.slot?_of_pcTarget htarget).symm.trans hslot)
    have hname : p.pointerName ∈ counterNames := by
      unfold Prefixes.pointerName
      split <;> decide
    exact .of_counter _ hname hbase hindex hoffset rfl

/-- **On ARM a slot is the offset of its operand**, reduced to 32 bits. -/
theorem Arm.Counted.knownAt_slot (h : Counted i.address o) (hslot : o.slot? = some a) :
    o.KnownAt .arm i a := by
  obtain ⟨hbase, -, hknown⟩ := h
  cases hpc : o.pcTarget with
  | none =>
    rw [MemoryOperand.Based.slot?_eq_none ⟨hbase, hpc⟩] at hslot
    cases hslot
  | some t =>
    obtain rfl : t = a := Option.some.inj ((MemoryOperand.slot?_of_pcTarget hpc).symm.trans hslot)
    obtain ⟨hcounter, hindex, hoffset, rfl⟩ := hknown t hpc
    have hshort : i.Short .arm := .inl rfl
    refine .of_counter "pc" (by decide) hcounter hindex hoffset ?_
    rw [Instruction.reduced, Instruction.reduced, if_pos hshort, if_pos hshort, Arm.relativeTarget,
      low32_low32]
    rfl

end Disassembler
