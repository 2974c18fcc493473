import Disassembler.Proofs.Delimiting
import Disassembler.Proofs.Targets

/-!
# What x86-64 counts from the end of an instruction

A jump, branch or call says how far its target is from the end of the instruction, and so does a
place in memory whose base is the instruction pointer. For the first the displacement is the last
that is read, so the end is known when it is; for the second numbers may follow, and the end is known
only when all of them are read. Here the bytes of a valid instruction are taken apart to say which of
them are the displacement, and what is decoded is computed from those.
-/

namespace Disassembler

theorem moveBy_eq_add (a : UInt64) (d : Int) : moveBy a d = UInt64.ofInt d + a := UInt64.add_comm ..

namespace ByteReader

variable {α : Type} {r : ByteReader α} {used : List UInt8} {a : α}

theorem Reads.of_takes {P : List UInt8 → α → Prop} (h : r.Reads P) (htakes : r.Takes used a) :
    P used a := by
  obtain ⟨used', hused, hP⟩ := h.of_run (htakes.run_append [])
  rwa [List.append_cancel_right hused]

end ByteReader

namespace X86

open Prefixes

/-! ## The bytes behind the opcode -/

/-- The opcode behind the prefixes: one byte or, behind the escape byte, two. -/
inductive IsOpcode : List UInt8 → Prop where
  | single {b : UInt8} (hplain : ¬ IsPrefix b) (hescape : b ≠ 0x0F) : IsOpcode [b]
  | escaped (b : UInt8) : IsOpcode [0x0F, b]

/-- The bytes of the displacement of a jump, branch or call, by its opcode. -/
def jumpBytes : List UInt8 → Nat
  | [b] => nearBytes b.toNat
  | _ => 4

variable {p : Prefixes} {near : Nat} {used : List UInt8} {op : Operation}

theorem IsBody.exists_opcode (h : IsBody p used op) (hplain : ∀ b ∈ used.head?, ¬ IsPrefix b) :
    ∃ opcode rest, used = opcode ++ rest ∧ IsOpcode opcode
      ∧ IsOperation p (jumpBytes opcode) rest op := by
  cases h with
  | @primary b hescape rest op h => exact ⟨[b], rest, rfl, .single (hplain b rfl) hescape, h⟩
  | @secondary b rest op h => exact ⟨[0x0F, b], rest, rfl, .escaped b, h⟩

/-- A direct transfer reads nothing but its displacement. -/
theorem IsOperation.of_target (h : IsOperation p near used op) {t : UInt64}
    (ht : op.flow.target? = some t) :
    used.length = near ∧ t = UInt64.ofInt (signExtend (8 * near) (littleEndian used)) := by
  cases h with
  | plain _ h => exact absurd (h.flow.symm.trans ht) (by simp)
  | near m hkind hlength =>
    exact ⟨hlength, Option.some.inj (ht.symm.trans (hkind _))⟩

/-- What can be said of an operand that counts from the end of the instruction, before the end is
known: which of the bytes behind the opcode are its displacement. -/
theorem IsOperation.of_relative (h : IsOperation p near used op) {m : MemoryOperand}
    (hm : .memory m ∈ op.operands) (hrelative : m.pcTarget.isSome ∨ IsPointer m.base) :
    ∃ modrm disp numbers, used = modrm :: (disp ++ numbers) ∧ modrm.toNat / 64 = 0
      ∧ modrm.toNat % 8 = 5 ∧ disp.length = 4 ∧ m.displacement = signExtend 32 (littleEndian disp)
      ∧ m.pcTarget = some (UInt64.ofInt m.displacement) := by
  cases h with
  | near => exact absurd hm (by simp [Operation.withTarget])
  | plain numbers h =>
    generalize ho : Operand.memory m = o at hm
    cases h.operands o hm with
    | place hplace =>
      obtain rfl := Operand.memory.inj ho
      cases hplace with
      | based _ _ hbase hnone => exact absurd hrelative (by simp [hbase, hnone])
      | @relative modrm disp hmode hlow hdisp _ _ _ _ _ hdisplacement htarget =>
        exact ⟨modrm, disp, numbers, rfl, hmode, hlow, hdisp, hdisplacement, htarget⟩
    | absolute n a size =>
      obtain rfl := Operand.memory.inj ho
      exact absurd hrelative (by simp [IsPointer])
    | _ => exact absurd ho Operand.noConfusion

/-! ## When the end is known -/

@[simp] theorem flow_withLock (p : Prefixes) (op : Operation) :
    (withLock p op).flow = op.flow := by
  unfold withLock
  split <;> rfl

@[simp] theorem operands_withLock (p : Prefixes) (op : Operation) :
    (withLock p op).operands = op.operands := by
  unfold withLock
  split <;> rfl

/-- A place that is moved is a place whose target was moved. -/
theorem exists_memory_of_moveTarget {o : Operand} {d : UInt64} {m : MemoryOperand}
    (h : o.moveTarget d = .memory m) :
    ∃ m₀, o = .memory m₀ ∧ m = { m₀ with pcTarget := m₀.pcTarget.map (· + d) } := by
  cases o with
  | memory m₀ => exact ⟨m₀, rfl, (Operand.memory.inj h).symm⟩
  | _ => exact Operand.noConfusion h

end X86

open X86 in
/--
**Relative addresses count from the end of the instruction.**

Let some bytes begin with a valid instruction. Its own bytes are prefixes, an opcode and the rest. If
it has a target, the rest is the displacement, of one byte or of four as the opcode has it, and the
target is that far from the end of the instruction, with the sign extended. And for every operand
in memory whose base is the instruction pointer, or whose address is known, the rest begins with a
ModRM byte that says so. The four bytes directly behind that byte are the displacement, and whatever
numbers come after them, the address of the operand is that far from the end of the instruction.
-/
theorem relative_addresses_count_from_the_end (order : ByteOrder) {data : List UInt8} (a : UInt64)
    (hvalid : (decode .x86_64 order data a).isInvalid = false) :
    let i := decode .x86_64 order data a
    ∃ prefixes opcode rest, i.bytes = prefixes ++ (opcode ++ rest)
      ∧ (∀ b ∈ prefixes, IsPrefix b) ∧ IsOpcode opcode
      ∧ (∀ t, i.flow.target? = some t → rest.length = jumpBytes opcode
        ∧ t = moveBy (a + UInt64.ofNat i.length) (signExtend (8 * rest.length) (littleEndian rest)))
      ∧ ∀ m, .memory m ∈ i.operands → m.pcTarget.isSome ∨ IsPointer m.base →
        ∃ modrm disp numbers, rest = modrm :: (disp ++ numbers)
          ∧ modrm.toNat / 64 = 0 ∧ modrm.toNat % 8 = 5 ∧ disp.length = 4
          ∧ m.displacement = signExtend 32 (littleEndian disp)
          ∧ m.pcTarget = some (moveBy (a + UInt64.ofNat i.length) m.displacement) := by
  intro i
  obtain ⟨ps, used, behind, op, hencodes, hdata⟩ := exists_encodes hvalid
  obtain ⟨opcode, rest, rfl, hopcode, hop⟩ :=
    (reads_body.of_takes hencodes.takes).exists_opcode hencodes.opcode
  have hi : i = _ := hencodes.decode_eq hdata a
  refine ⟨ps, opcode, rest, by rw [hi], hencodes.prefixes, hopcode, fun t ht => ?_,
    fun m hm hrelative => ?_⟩
  · rw [hi] at ht ⊢
    simp only [Instruction.flow, Operation.moveTargets, flow_withLock, Flow.target?_moveTarget,
      Option.map_eq_some_iff] at ht
    obtain ⟨t₀, ht₀, rfl⟩ := ht
    obtain ⟨hlength, rfl⟩ := hop.of_target ht₀
    exact ⟨hlength, by rw [moveBy_eq_add, hlength]; rfl⟩
  · rw [hi] at hm ⊢
    simp only [Instruction.operands, Operation.moveTargets, operands_withLock,
      List.mem_map] at hm
    obtain ⟨o, ho, hmoved⟩ := hm
    obtain ⟨m₀, rfl, rfl⟩ := exists_memory_of_moveTarget hmoved
    obtain ⟨modrm, disp, numbers, hused, hmode, hlow, hdisp, hdisplacement, htarget⟩ :=
      hop.of_relative ho (by simpa using hrelative)
    refine ⟨modrm, disp, numbers, hused, hmode, hlow, hdisp, hdisplacement, ?_⟩
    simp only [htarget, Option.map_some, moveBy_eq_add]
    rfl

/-- A comparison of a word before the instruction with a number, which is read last. -/
theorem relative_addresses_count_from_the_end_comparison :
    let i := decode .x86_64 .little [0x66, 0x81, 0x3D, 0xF0, 0xFF, 0xFF, 0xFF, 0x34, 0x12] 0x1000
    let m : MemoryOperand :=
      { base := some "rip", displacement := -16, width := 32, size := 2, pcTarget := some 0xFF9 }
    i.isInvalid = false ∧ .memory m ∈ i.operands ∧ ∃ front modrm disp numbers,
      i.bytes = front ++ modrm :: (disp ++ numbers) ∧ disp.length = 4
        ∧ m.displacement = signExtend 32 (littleEndian disp)
        ∧ m.pcTarget = some (moveBy (0x1000 + UInt64.ofNat i.length) m.displacement) := by
  intro i m
  have hvalid : i.isInvalid = false := by decide +kernel
  have hm : .memory m ∈ i.operands := by decide +kernel
  obtain ⟨ps, opcode, _, hbytes, -, -, -, hrelative⟩ :=
    relative_addresses_count_from_the_end .little 0x1000 hvalid
  obtain ⟨modrm, disp, numbers, rfl, -, -, hdisp, hdisplacement, htarget⟩ :=
    hrelative m hm (.inl rfl)
  refine ⟨hvalid, hm, ps ++ opcode, modrm, disp, numbers, ?_, hdisp, hdisplacement, htarget⟩
  rw [List.append_assoc]
  exact hbytes

end Disassembler
