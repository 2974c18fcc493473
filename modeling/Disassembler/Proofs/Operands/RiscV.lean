import Disassembler.Proofs.Operands.Basic
import Disassembler.Proofs.RiscV.Forms

/-!
# What encodings of RISC-V show

What is decoded is one of the forms or a fence, so it is enough to look at each slot of a form. All
registers have names, all numbers fit their fields, and all places in memory count from a register.
-/

namespace Disassembler.RiscV

variable {C : Prop} {w : UInt32} {a : UInt64}

theorem rd_lt : rd w < 32 := bits_lt w 11 7

theorem rs1_lt : rs1 w < 32 := bits_lt w 19 15

theorem rs2_lt : rs2 w < 32 := bits_lt w 24 20

variable {M : MemoryOperand → Prop}

theorem isSome_integerName {r : Nat} (h : r < 32) : integerNames[r]?.isSome := by
  simp [integerNames, h]

theorem legible_integerName (r : Nat) : Legible integerNames[r]? :=
  legible_getElem? (by decide +kernel) r

theorem meets_xreg {r : Nat} (h : r < 32) : (xreg r).Meets C M := by
  simp [xreg, isSome_integerName h, legible_integerName]

theorem meets_freg {r : Nat} (h : r < 32) : (freg r).Meets C M := by
  have hlegible : Legible floatNames[r]? := legible_getElem? (by decide +kernel) r
  simp [freg, hlegible, show floatNames[r]?.isSome by simp [floatNames, h]]

theorem meets_based {r : Nat} (h : r < 32) (d : Int) (size : UInt8) :
    (based r d size).Meets C MemoryOperand.Based := by
  simp [based, MemoryOperand.Based, isSome_integerName h, legible_integerName]

theorem meets_unbased {r : Nat} (h : r < 32) (size : UInt8) :
    (unbased r size).Meets C MemoryOperand.Based := by
  simp [unbased, MemoryOperand.Based, isSome_integerName h, legible_integerName]

theorem meets_csrOperand {v : Nat} (h : v < 4096) : (csrOperand v).Meets C M := by
  have hlegible : ∀ q ∈ csrNames, q.2 ≠ "?" := by decide +kernel
  unfold csrOperand
  split
  · rename_i n hn
    obtain ⟨front, back, heq, -⟩ := List.lookup_eq_some_iff.mp hn
    exact (Operand.meets_named _).mpr (hlegible (v, n) (heq ▸ by simp))
  · exact Operand.meets_hexImm h

/-- **What a slot of a form shows.** -/
theorem Slot.meets_operand (s : Slot) : (s.operand w a).Meets C MemoryOperand.Based := by
  cases s with
  | rd => exact meets_xreg rd_lt
  | rs1 => exact meets_xreg rs1_lt
  | rs2 => exact meets_xreg rs2_lt
  | floatRd => exact meets_freg rd_lt
  | floatRs2 => exact meets_freg rs2_lt
  | imm => exact Operand.meets_signedImm (by decide) rfl
  | shift6 => exact Operand.meets_decimalImm (bits_lt w 25 20)
  | shift5 => exact Operand.meets_decimalImm rs2_lt
  | upper => exact Operand.meets_hexImm (bits_lt w 31 12)
  | csr => exact meets_csrOperand (bits_lt w 31 20)
  | uimm => exact Operand.meets_decimalImm rs1_lt
  | loaded size => exact meets_based rs1_lt _ size
  | stored size => exact meets_based rs1_lt _ size
  | atomic size => exact meets_unbased rs1_lt size
  | branchTarget => exact Operand.meets_relative _
  | jumpTarget => exact Operand.meets_relative _

theorem meets_fenceSet {v : Nat} (h : v < 16) : (Operand.reg fenceSets[v]?).Meets C M := by
  have hlegible : Legible fenceSets[v]? := legible_getElem? (by decide +kernel) v
  simp [hlegible, show fenceSets[v]?.isSome by simp [fenceSets, h]]

theorem meets_fence : Meets C M (fence w) := by
  have hbefore : (Operand.reg fenceSets[bits w 27 24]?).Meets C M := meets_fenceSet (bits_lt w 27 24)
  have hafter : (Operand.reg fenceSets[bits w 23 20]?).Meets C M := meets_fenceSet (bits_lt w 23 20)
  unfold fence
  dsimp only
  split
  · rw [meets_some]
    split
    · simp
    · split
      · simp
      · simp only [List.forall_mem_cons]
        exact ⟨hbefore, hafter, fun o ho => absurd ho List.not_mem_nil⟩
  · simp
  · simp

/-- **What a word shows.** -/
theorem meets_decode : Meets C MemoryOperand.Based (decode w a) := by
  by_cases hfence : bits w 6 0 = 0x0F
  · have hdecode : decode w a = fence w := by simp [decode, hfence]
    rw [hdecode]
    exact meets_fence
  · intro op hop o ho
    obtain ⟨f, -, -, hshows⟩ := allListed_decode hfence op hop
    rw [hshows.operands] at ho
    obtain ⟨s, -, rfl⟩ := List.mem_map.mp ho
    exact s.meets_operand

end Disassembler.RiscV
