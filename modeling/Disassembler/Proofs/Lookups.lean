import Disassembler.Proofs.Operands.AArch64
import Disassembler.Proofs.Operands.Arm
import Disassembler.Proofs.Operands.Mips
import Disassembler.Proofs.Operands.RiscV
import Disassembler.Proofs.Operands.X86

/-!
# Tables are long enough

The decoders look names up by the fields of an encoding. Most tables have as many entries as their
field has values, some are asked by two fields at once, and some by a field that is moved down to
where the entries begin, when the decoder has seen that it reaches them. A table that has no entry
for the last values of its field is given by the number of its slots; the encodings of the empty
ones are invalid.
-/

namespace Disassembler

/-! ## Machines with words -/

namespace Arm

/-- All tables that a word is looked up in are long enough. A hint is only looked up for whether
there is one. -/
structure LooksWithin (w : UInt32) : Prop where
  fields : ∀ r ∈ [rn w, rd w, rs w, rm w], r < registerNames.size
  list : ∀ r ∈ listed w, r < registerNames.size
  /-- The first register of a pair is even, so there is a next one. -/
  pair : rd w % 2 ≠ 1 → rd w + 1 < registerNames.size
  condition : cond w < conditionNames.size
  shift : bits w 6 5 < shiftNames.size
  operation : bits w 24 21 < dataNames.size
  status : bits w 19 16 < statusFields.size
  long : bits w 22 21 < longNames.size
  ending : bits w 24 23 < blockEndings.size

theorem looksWithin (w : UInt32) : LooksWithin w where
  fields := by simp [registerNames]
  list := fun r hr => List.mem_range.mp (List.mem_filter.mp hr).1
  pair := fun hodd => by
    have hlt : rd w < 16 := bits_lt w 15 12
    have hsize : registerNames.size = 16 := rfl
    omega
  condition := bits_lt w 31 28
  shift := bits_lt w 6 5
  operation := bits_lt w 24 21
  status := bits_lt w 19 16
  long := bits_lt w 22 21
  ending := bits_lt w 24 23

end Arm

namespace AArch64

/-- All tables that a word is looked up in are long enough. -/
structure LooksWithin (w : UInt32) : Prop where
  fields : ∀ r ∈ [rd w, rn w, ra w, rm w],
    r < wideNames.size ∧ r < narrowNames.size ∧ r < vectorNumbers.size
  /-- The views of vector registers by their size, and those of four to sixteen bytes. -/
  view : ∀ kind ∈ [bits w 31 30, 2, 3, 4], kind < vectorLetters.size
  condition : ∀ c ∈ [bits w 3 0, bits w 15 12],
    c < conditionNames.size ∧ opposite c < conditionNames.size
  shift : bits w 23 22 < shiftNames.size
  extension : bits w 15 13 < extensionNames.size
  logical : bits w 30 29 < logicalNames.size
  logicalReg : 2 * bits w 30 29 + bits w 21 21 < logicalRegNames.size
  select : 2 * bits w 30 30 + bits w 10 10 < selectNames.size
  ordered : bits w 31 30 < orderedEndings.size

theorem looksWithin (w : UInt32) : LooksWithin w where
  fields := by
    have hall : ∀ r < 32, r < wideNames.size ∧ r < narrowNames.size ∧ r < vectorNumbers.size :=
      fun r hr => ⟨hr, hr, hr⟩
    simp [hall]
  view := by
    have hsize : bits w 31 30 < 4 := bits_lt w 31 30
    simp [vectorLetters, Nat.lt_succ_of_lt hsize]
  condition := by
    have hall : ∀ c < 16, c < conditionNames.size ∧ opposite c < conditionNames.size :=
      fun c hc => ⟨hc, opposite_lt hc⟩
    simp [hall]
  shift := bits_lt w 23 22
  extension := bits_lt w 15 13
  logical := bits_lt w 30 29
  logicalReg := by
    have hoperation : bits w 30 29 < 4 := bits_lt w 30 29
    have hinverts : bits w 21 21 < 2 := bits_lt w 21 21
    have hsize : logicalRegNames.size = 8 := rfl
    omega
  select := by
    have hhigh : bits w 30 30 < 2 := bits_lt w 30 30
    have hlow : bits w 10 10 < 2 := bits_lt w 10 10
    have hsize : selectNames.size = 4 := rfl
    omega
  ordered := bits_lt w 31 30

end AArch64

namespace RiscV

/-- All tables that a word is looked up in are long enough. -/
structure LooksWithin (w : UInt32) : Prop where
  fields : ∀ r ∈ [rd w, rs1 w, rs2 w], r < integerNames.size ∧ r < floatNames.size
  fence : ∀ s ∈ [bits w 27 24, bits w 23 20], s < fenceSets.size
  operation : funct3 w < baseOps.size ∧ funct3 w < mulOps.size
  /-- Loads and stores have eight slots. The last one and the last four are empty, and encode
  nothing. -/
  access : funct3 w < 8 ∧ (loads.size ≤ funct3 w → load w = none)
    ∧ (stores.size ≤ funct3 w → store w = none)
  /-- What is no access to a status register is told apart before. -/
  status : funct3 w ≠ 0 → funct3 w ≠ 4 → funct3 w % 4 - 1 < csrStems.size

theorem looksWithin (w : UInt32) : LooksWithin w where
  fields := by
    have hall : ∀ r < 32, r < integerNames.size ∧ r < floatNames.size := fun r hr => ⟨hr, hr⟩
    simp [hall, rd_lt, rs1_lt, rs2_lt]
  fence := by simp [fenceSets]
  operation := ⟨bits_lt w 14 12, bits_lt w 14 12⟩
  access := by
    refine ⟨bits_lt w 14 12, fun hempty => ?_, fun hempty => ?_⟩
    · rw [load, Array.getElem?_eq_none hempty, Option.map_none]
    · rw [store, Array.getElem?_eq_none hempty, Option.map_none]
  status := fun _ _ => by
    have hsize : csrStems.size = 3 := rfl
    omega

end RiscV

namespace Mips

/-- All tables that a word is looked up in are long enough. -/
structure LooksWithin (w : UInt32) : Prop where
  fields : ∀ r ∈ [rs w, rt w, rd w],
    r < generalNames.size ∧ r < floatNames.size ∧ r < systemNames.size
  condition : rt w % 4 < conditionBranches.size

theorem looksWithin (w : UInt32) : LooksWithin w where
  fields := by
    have hall : ∀ r < 32, r < generalNames.size ∧ r < floatNames.size ∧ r < systemNames.size :=
      fun r hr => ⟨hr, hr, hr⟩
    simp [hall]
  condition := Nat.mod_lt _ (by decide)

end Mips

/-! ## x86-64 -/

namespace X86

/-- A number that all tables of registers have. The byte registers without a REX byte have eight. -/
structure HasRegister (p : Prefixes) (r : Nat) : Prop where
  byte : r < byteNames.size
  legacyByte : ¬ (p.rex ≠ 0 ∨ 8 ≤ r) → r < legacyByteNames.size
  word : r < wordNames.size
  dword : r < dwordNames.size
  qword : r < qwordNames.size
  vector : r < vectorNames.size

theorem hasRegister (p : Prefixes) {r : Nat} (h : r < 16) : HasRegister p r where
  byte := h
  legacyByte := fun hlow => Nat.lt_of_not_le fun hle => hlow (.inr hle)
  word := h
  dword := h
  qword := h
  vector := h

/-- All tables that an opcode and a ModRM byte are looked up in are long enough. A prefetch is only
looked up for whether there is one. -/
structure LooksWithin (p : Prefixes) (opcode : UInt8) (m : ModRM) : Prop where
  /-- Three bits of an opcode, a ModRM byte or a scaled index, with their high bit. -/
  fields : ∀ high, ∀ low < 8, HasRegister p (Prefixes.extended high low)
  reg : HasRegister p m.reg
  place : ∀ r, m.place = .register r → HasRegister p r ∧ r % 8 < stackNames.size
  condition : opcode.toNat % 16 < conditionNames.size
  /-- The arithmetic rows are the opcodes below `40`. -/
  row : opcode.toNat < 0x40 → opcode.toNat / 8 < arithmeticNames.size
  group : ∀ names ∈ [arithmeticNames, shiftNames, unaryNames], m.digit < names.size
  table : m.digit < tableNames.size ∧ m.digit < stateNames.size
  /-- The segment registers and the task registers have eight slots, of which the last two are
  empty. -/
  slot : m.digit < 8 ∧ segmentNames.size ≤ 8 ∧ taskNames.size ≤ 8
  /-- So have the forms of an arithmetic row. -/
  form : opcode.toNat % 8 < 8 ∧ arithmeticForms.size ≤ 8
  float : opcode.toNat % 8 < floatMemory.size
    ∧ ∀ row ∈ floatMemory[opcode.toNat % 8]?, m.digit < row.size
  constant : 4 ≤ m.digit → ∀ low < 8, 8 * (m.digit - 4) + low < floatConstants.size
  bitTest : 4 ≤ m.digit → m.digit - 4 < bitTestNames.size
  bitTestOpcode : ∀ op ∈ [0xA3, 0xAB, 0xB3, 0xBB], (op - 0xA3) / 8 < bitTestNames.size

theorem looksWithin (p : Prefixes) (opcode : UInt8) :
    (readModRM p).Yields (LooksWithin p opcode) := by
  refine ByteReader.Reads.yields (reads_readModRM.mono fun front m hm => ?_)
  have hdigit : m.digit < 8 := Nat.mod_lt _ (by decide)
  exact {
    fields := fun high low hlow => hasRegister p (extended_lt high hlow)
    reg := hasRegister p hm.reg
    place := fun r hr => ⟨hasRegister p (hm.lt_of_register hr), Nat.mod_lt r (by decide)⟩
    condition := Nat.mod_lt _ (by decide)
    row := fun hrow => by
      have hsize : arithmeticNames.size = 8 := rfl
      omega
    group := by simp [arithmeticNames, shiftNames, unaryNames, hdigit]
    table := ⟨hdigit, hdigit⟩
    slot := ⟨hdigit, by decide, by decide⟩
    form := ⟨Nat.mod_lt _ (by decide), by decide⟩
    float := by
      have hrows : ∀ row ∈ floatMemory, row.size = 8 := by decide
      refine ⟨Nat.mod_lt _ (by decide), fun row hrow => ?_⟩
      rw [hrows row (Array.mem_of_getElem? hrow)]
      exact hdigit
    constant := fun hfour low hlow => by
      have hsize : floatConstants.size = 32 := rfl
      omega
    bitTest := fun hfour => by
      have hsize : bitTestNames.size = 4 := rfl
      omega
    bitTestOpcode := by decide }

end X86

/-- All tables that the decoder of a machine looks into are long enough. -/
def Machine.LooksWithin : Machine → Prop
  | .x86_64 => ∀ p opcode, (X86.readModRM p).Yields (X86.LooksWithin p opcode)
  | .arm => ∀ w, Arm.LooksWithin w
  | .aarch64 => ∀ w, AArch64.LooksWithin w
  | .riscv64 => ∀ w, RiscV.LooksWithin w
  | .mips => ∀ w, Mips.LooksWithin w

/-- **Tables are long enough.** -/
theorem Machine.looksWithin (m : Machine) : m.LooksWithin := by
  cases m with
  | x86_64 => exact X86.looksWithin
  | arm => exact Arm.looksWithin
  | aarch64 => exact AArch64.looksWithin
  | riscv64 => exact RiscV.looksWithin
  | mips => exact Mips.looksWithin

end Disassembler
