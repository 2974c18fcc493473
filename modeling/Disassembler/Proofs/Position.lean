import Disassembler.Proofs.Rebase.Decode
import Disassembler.Proofs.Targets

/-!
# The same bytes on any machine elsewhere

The address of an instruction enters its decoding in many ways: from the end of the instruction,
from four or eight bytes past its start, from its page, and for the jumps of MIPS from the region of
256 MiB of the delay slot. All of them move with the address when it is moved by whole regions, and
nothing else depends on it. The machines of 32 bits reduce what they get modulo `2 ^ 32`, which it
is all the same whether one does before the move or only after it.
-/

namespace Disassembler

/-- An address of 32 bits moved by a distance. -/
def moveBy32 (t : UInt64) (d : Int) : UInt64 := low32 (moveBy t d)

/-- An address moved by a distance, in the width of the addresses of a machine. -/
def Machine.moveBy : Machine → UInt64 → Int → UInt64
  | .arm, t, d | .mips, t, d => moveBy32 t d
  | .x86_64, t, d | .aarch64, t, d | .riscv64, t, d => Disassembler.moveBy t d

theorem low32_toNat (t : UInt64) : (low32 t).toNat = t.toNat % 2 ^ 32 := by
  have hmod : t.toNat % 1 <<< 32 = t.toNat % 2 ^ 32 := rfl
  rw [low32, hmod, UInt64.toNat_ofNat_of_lt']
  exact Nat.lt_trans (Nat.mod_lt _ (by decide)) (by decide)

/-- Reducing before the move makes no difference. -/
theorem moveBy32_low32 (t : UInt64) (d : Int) : moveBy32 (low32 t) d = moveBy32 t d := by
  apply UInt64.toNat_inj.mp
  simp only [moveBy32, low32_toNat, moveBy, UInt64.toNat_add]
  omega

theorem moveBy32_comm (t : UInt64) (d e : Int) :
    low32 (moveBy (moveBy t d) e) = moveBy32 (low32 (moveBy t e)) d := by
  rw [moveBy32_low32, moveBy_comm]
  rfl

/-! ## ARM -/

namespace Arm

variable (w : UInt32) (a : UInt64) (d : Int)

theorem relativeTarget_moveBy (offset : Int) :
    relativeTarget (moveBy a d) offset = moveBy32 (relativeTarget a offset) d := by
  rw [relativeTarget, ← moveBy_add, moveBy32_comm]
  rfl

theorem branch_moveBy : branch w (moveBy a d) = (branch w a).mapTargets (moveBy32 · d) := by
  simp only [branch, relativeTarget_moveBy]
  simp [Operation.mapTargets_withTarget]

theorem unconditional_moveBy :
    unconditional w (moveBy a d) = (unconditional w a).map (·.mapTargets (moveBy32 · d)) := by
  unfold unconditional
  by_cases hcall : bits w 31 25 = 0x7D
  · rw [if_pos hcall, if_pos hcall, relativeTarget_moveBy, Option.map_some,
      Operation.mapTargets_withTarget (by simp) Flow.direct_call]
  -- preloads and barriers
  rw [if_neg hcall, if_neg hcall, Absolute.map_mapTargets]
  simp only [absolute_ite, absolute_some]
  refine ⟨fun _ => by simp, fun _ => ⟨fun _ => by simp, fun _ => ?_⟩⟩
  split <;> simp

/-- Of a place that counts from the instruction, or may do so, the address moves. -/
theorem displaced_moveBy (offset : Nat) (width size : UInt8) :
    displaced w (moveBy a d) offset width size
      = (displaced w a offset width size).mapTarget (moveBy32 · d) := by
  simp only [displaced, relativeTarget_moveBy, Operand.mapTarget]
  by_cases hliteral : rn w = pc ∧ indexMode w = .offset
  · simp only [if_pos hliteral, Option.map_some]
  · simp only [if_neg hliteral, Option.map_none]

/-- A register that is loaded from a place or stored to it. -/
theorem mapTargets_transfer (m : String) (r : Nat) (place : Operand) {flow : Flow}
    (hflow : flow.target? = none) (f : UInt64 → UInt64) :
    (Operation.mk m [reg r, place] flow).mapTargets f
      = { mnemonic := m, operands := [reg r, place.mapTarget f], flow } := by
  rw [Operation.mapTargets, Flow.mapTarget_of_target? hflow]
  rfl

theorem extraLoadStore_moveBy :
    extraLoadStore w (moveBy a d) = (extraLoadStore w a).map (·.mapTargets (moveBy32 · d)) := by
  simp only [extraLoadStore, Option.bind_eq_bind, Option.map_bind]
  refine Option.bind_congr fun t _ => ?_
  have hplace : (if bit w 22 then displaced w (moveBy a d) (bits w 11 8 <<< 4 + bits w 3 0) 8 t.size
      else indexed w none t.size)
      = (if bit w 22 then displaced w a (bits w 11 8 <<< 4 + bits w 3 0) 8 t.size
        else indexed w none t.size).mapTarget (moveBy32 · d) := by
    split
    · exact displaced_moveBy w a d _ _ _
    · exact ((absolute_indexed w _ _).mapTarget _).symm
  rw [hplace, Function.comp_apply]
  by_cases hpair : t.pair
  · rw [if_pos hpair, if_pos hpair]
    split <;> rfl
  · rw [if_neg hpair, if_neg hpair, Option.map_some, mapTargets_transfer _ _ _ (by simp)]

theorem loadStore_moveBy :
    loadStore w (moveBy a d) = (loadStore w a).map (·.mapTargets (moveBy32 · d)) := by
  have hleave : (if bit w 20 ∧ rd w = pc then Flow.indirect else .next).target? = none := by simp
  unfold loadStore
  dsimp only
  by_cases hindex : bit w 25
  · rw [if_pos hindex, if_pos hindex, Absolute.map_mapTargets (by simp)]
  rw [if_neg hindex, if_neg hindex, displaced_moveBy]
  by_cases hpop : rn w = sp ∧ bits w 24 20 = 0b01001 ∧ bits w 11 0 = 4
  · rw [if_pos hpop, if_pos hpop, Absolute.map_mapTargets (by simp)]
  rw [if_neg hpop, if_neg hpop]
  by_cases hpush : rn w = sp ∧ bits w 24 20 = 0b10010 ∧ bits w 11 0 = 4
  · rw [if_pos hpush, if_pos hpush, Absolute.map_mapTargets (by simp)]
  · rw [if_neg hpush, if_neg hpush, Option.map_some, mapTargets_transfer _ _ _ hleave]

theorem registerForms_moveBy :
    registerForms w (moveBy a d) = (registerForms w a).map (·.mapTargets (moveBy32 · d)) := by
  unfold registerForms
  split
  · split
    · rw [((absolute_multiply w).or (absolute_miscellaneous w)).map_mapTargets]
    · exact extraLoadStore_moveBy w a d
  · split
    · rw [(absolute_miscellaneous w).map_mapTargets]
    · rw [(absolute_dataProcessing w).map_mapTargets]

/-- **The same word elsewhere.** -/
theorem decode_moveBy :
    decode w (moveBy a d) = (decode w a).map (·.mapTargets (moveBy32 · d)) := by
  unfold decode
  by_cases hcond : cond w = 15
  · rw [if_pos hcond, if_pos hcond]
    exact unconditional_moveBy w a d
  rw [if_neg hcond, if_neg hcond]
  split
  · exact registerForms_moveBy w a d
  · rw [(absolute_immediateForms w).map_mapTargets]
  · exact loadStore_moveBy w a d
  · split
    · rfl
    · exact loadStore_moveBy w a d
  · rw [(absolute_block w).map_mapTargets]
  · rw [branch_moveBy, Option.map_some]
  · rw [Absolute.map_mapTargets (by simp)]
  · rfl

end Arm

/-! ## MIPS -/

namespace Mips

variable (w : UInt32) (a : UInt64) {d : Int}

theorem branchTarget_moveBy (d : Int) :
    branchTarget w (moveBy a d) = moveBy32 (branchTarget w a) d := by
  rw [branchTarget, ← moveBy_add, moveBy32_comm]
  rfl

/-- The region of an address moves with it by whole regions. -/
theorem jumpTarget_moveBy (hd : 2 ^ 28 ∣ d) :
    jumpTarget w (moveBy a d) = moveBy32 (jumpTarget w a) d := by
  have hfield : bits w 25 0 < 2 ^ 26 := bits_lt w 25 0
  have hregion : ∀ n : Nat, (n % 1 <<< 32) >>> 28 <<< 28 = n % 2 ^ 32 / 2 ^ 28 * 2 ^ 28 := fun n => by
    rw [Nat.shiftRight_eq_div_pow, Nat.shiftLeft_eq]
    rfl
  -- wrapping loses no region, as there is a whole number of regions
  have hregions : 2 ^ 28 ∣ (UInt64.ofInt d).toNat := by
    simp only [UInt64.ofInt, UInt64.toNat_ofNat']
    omega
  apply UInt64.toNat_inj.mp
  rw [jumpTarget, ← moveBy_add, moveBy32, low32_toNat]
  simp only [jumpTarget, hregion, moveBy, UInt64.toNat_add, UInt64.toNat_ofNat']
  omega

section

variable (d : Int) {os : List Operand}

@[simp] theorem branchTo_moveBy (hos : ∀ o ∈ os, o.Absolute) (m : String) :
    branchTo m os w (moveBy a d) = (branchTo m os w a).map (·.mapTargets (moveBy32 · d)) := by
  simp [branchTo, branchTarget_moveBy, Operation.mapTargets_withTarget hos]

@[simp] theorem jumpTo_moveBy (m : String) :
    jumpTo m w (moveBy a d) = (jumpTo m w a).map (·.mapTargets (moveBy32 · d)) := by
  simp [jumpTo, branchTarget_moveBy, Operation.mapTargets_withTarget]

@[simp] theorem callTo_moveBy (hos : ∀ o ∈ os, o.Absolute) (m : String) :
    callTo m os w (moveBy a d) = (callTo m os w a).map (·.mapTargets (moveBy32 · d)) := by
  simp [callTo, branchTarget_moveBy, Operation.mapTargets_withTarget hos]

theorem map_mapTargets_plain (hos : ∀ o ∈ os, o.Absolute) (m : String) (f : UInt64 → UInt64) :
    (plain m os).map (·.mapTargets f) = plain m os :=
  (absolute_plain.mpr hos).map_mapTargets f

theorem regimm_moveBy :
    regimm w (moveBy a d) = (regimm w a).map (·.mapTargets (moveBy32 · d)) := by
  unfold regimm
  split <;> simp [map_mapTargets_plain]
  · split <;> rfl
  · split <;> rfl

theorem compare_moveBy (short full : String) :
    compare short full w (moveBy a d)
      = (compare short full w a).map (·.mapTargets (moveBy32 · d)) := by
  unfold compare
  split <;> simp

theorem cop1_moveBy : cop1 w (moveBy a d) = (cop1 w a).map (·.mapTargets (moveBy32 · d)) := by
  unfold cop1
  split <;> simp [map_mapTargets_plain, Option.map_bind]

end

/-- **The same word a number of regions away.** -/
theorem decode_moveBy (hd : 2 ^ 28 ∣ d) :
    decode w (moveBy a d) = (decode w a).map (·.mapTargets (moveBy32 · d)) := by
  unfold decode
  split
  · rw [(absolute_special w).map_mapTargets]
  · exact regimm_moveBy w a d
  · simp [jumpTarget_moveBy w a hd, Operation.mapTargets_withTarget]
  · simp [jumpTarget_moveBy w a hd, Operation.mapTargets_withTarget]
  · split
    · exact jumpTo_moveBy w a d "b"
    · exact compare_moveBy w a d _ _
  · exact compare_moveBy w a d _ _
  · simp
  · simp
  · rw [(absolute_cop0 w).map_mapTargets]
  · exact cop1_moveBy w a d
  · exact compare_moveBy w a d _ _
  · exact compare_moveBy w a d _ _
  · simp
  · simp
  · rw [(absolute_special2 w).map_mapTargets]
  · rw [(absolute_special3 w).map_mapTargets]
  · rw [Absolute.map_mapTargets]
    simp [absolute_immediate, absolute_access]

end Mips

/-! ## Every machine -/

theorem Operation.moveTargets_ofInt (d : Int) :
    (fun op : Operation => op.moveTargets (UInt64.ofInt d)) = (·.mapTargets (moveBy · d)) :=
  funext fun op => op.moveTargets_eq _

theorem decodeWord_moveBy {operation : UInt32 → UInt64 → Option Operation} {d : Int}
    {f : UInt64 → UInt64}
    (h : ∀ w a, operation w (moveBy a d) = (operation w a).map (·.mapTargets f))
    (order : ByteOrder) (data : List UInt8) (a : UInt64) :
    let i := decodeWord order operation data a
    decodeWord order operation data (moveBy a d)
      = { i with address := moveBy i.address d, operation := i.operation.map (·.mapTargets f) } := by
  unfold decodeWord
  split
  · rw [h]
  · rfl

/-- **The same bytes elsewhere.** -/
theorem decode_moveBy (m : Machine) (order : ByteOrder) (data : List UInt8) (a : UInt64) {d : Int}
    (hd : 2 ^ 28 ∣ d) :
    let i := decode m order data a
    decode m order data (moveBy a d)
      = { i with address := moveBy i.address d
                 operation := i.operation.map (·.mapTargets (m.moveBy · d)) } := by
  have hrebase : m.Rebasable d → decode m order data (moveBy a d)
      = { decode m order data a with
          address := moveBy (decode m order data a).address d
          operation := (decode m order data a).operation.map (·.mapTargets (moveBy · d)) } := by
    intro hm
    rw [decode_rebase hm, Instruction.rebase, Operation.moveTargets_ofInt]
  cases m with
  | x86_64 => exact hrebase trivial
  | riscv64 => exact hrebase trivial
  | aarch64 => exact hrebase (Int.dvd_trans (by decide) hd)
  | arm => exact decodeWord_moveBy (fun w a => Arm.decode_moveBy w a d) order data a
  | mips => exact decodeWord_moveBy (fun w a => Mips.decode_moveBy w a hd) order data a

/--
**Decoding is position-independent.**

On every machine, in either byte order, the same bytes at an address and at one a multiple of
`2 ^ 28` away decode to the same: the same bytes are taken, both are valid or both are not, and
mnemonic, flow and operands agree but for their targets. The target of the flow, those of relative
operands and those of memory that counts from the instruction move by exactly that distance,
modulo `2 ^ 64`, and on ARM and MIPS modulo `2 ^ 32`.
-/
theorem decode_position_independent (m : Machine) (order : ByteOrder) (data : List UInt8)
    (a : UInt64) {d : Int} (hd : 2 ^ 28 ∣ d) :
    let i := decode m order data a
    let j := decode m order data (moveBy a d)
    j.bytes = i.bytes ∧ j.length = i.length ∧ j.isInvalid = i.isInvalid ∧ j.mnemonic = i.mnemonic
      ∧ j.flow = i.flow.mapTarget (m.moveBy · d)
      ∧ j.operands = i.operands.map (·.mapTarget (m.moveBy · d)) := by
  intro i j
  have hmoved : j = { i with address := moveBy i.address d
                             operation := i.operation.map (·.mapTargets (m.moveBy · d)) } :=
    decode_moveBy m order data a hd
  rw [hmoved]
  refine ⟨rfl, rfl, Option.isNone_map, ?_⟩
  simp only [Instruction.mnemonic, Instruction.flow, Instruction.operands]
  cases i.operation with
  | none => exact ⟨rfl, rfl, rfl⟩
  | some op => exact ⟨rfl, rfl, rfl⟩

/-- A jump of MIPS whose delay slot begins a region, moved below zero: there its delay slot begins
the lowest region. -/
theorem decode_position_independent_region :
    let i := decode .mips .big [0x08, 0x00, 0x00, 0x01] 0x0FFFFFFC
    let j := decode .mips .big [0x08, 0x00, 0x00, 0x01] (moveBy 0x0FFFFFFC (-0x10000000))
    (2 ^ 28 : Int) ∣ -0x10000000 ∧ i.flow = .jump 0x10000004 ∧ j.length = i.length
      ∧ j.isInvalid = i.isInvalid ∧ j.mnemonic = i.mnemonic ∧ j.flow = .jump 4
      ∧ j.operands = [.relative 4] := by
  intro i j
  have hregion : (2 ^ 28 : Int) ∣ -0x10000000 := by decide
  have hflow : i.flow = .jump 0x10000004 := by decide +kernel
  have hoperands : i.operands = [.relative 0x10000004] := by decide +kernel
  obtain ⟨-, hlength, hinvalid, hmnemonic, hjump, htarget⟩ :=
    decode_position_independent .mips .big [0x08, 0x00, 0x00, 0x01] 0x0FFFFFFC hregion
  refine ⟨hregion, hflow, hlength, hinvalid, hmnemonic, hjump.trans ?_, htarget.trans ?_⟩
  · rw [hflow]
    decide +kernel
  · rw [hoperands]
    decide +kernel

end Disassembler
