import Disassembler.Proofs.Operands.Basic

/-!
# What encodings of MIPS show

All registers have names, all places in memory count from a register, and all numbers fit their
fields but one. That is the size of a bit field, which counts from one to 32 and is said to have five
bits.
-/

namespace Disassembler.Mips

variable {C : Prop} {w : UInt32} {a : UInt64}

/-! ## Fields and operands -/

@[simp] theorem rs_lt : rs w < 32 := bits_lt w 25 21

@[simp] theorem rt_lt : rt w < 32 := bits_lt w 20 16

@[simp] theorem rd_lt : rd w < 32 := bits_lt w 15 11

@[simp] theorem sa_lt : sa w < 32 := bits_lt w 10 6

@[simp] theorem immU_lt : immU w < 65536 := bits_lt w 15 0

variable {M : MemoryOperand → Prop}

@[simp] theorem isSome_generalName {r : Nat} (h : r < 32) : generalNames[r]?.isSome := by
  simp [generalNames, h]

@[simp] theorem legible_generalName (r : Nat) : Legible generalNames[r]? :=
  legible_getElem? (by decide +kernel) r

@[simp] theorem meets_greg {r : Nat} (h : r < 32) : (greg r).Meets C M := by
  simp [greg, h]

@[simp] theorem meets_freg {r : Nat} (h : r < 32) : (freg r).Meets C M := by
  have hlegible : Legible floatNames[r]? := legible_getElem? (by decide +kernel) r
  simp [freg, hlegible, show floatNames[r]?.isSome by simp [floatNames, h]]

@[simp] theorem meets_sysreg {r : Nat} (h : r < 32) : (sysreg r).Meets C M := by
  have hlegible : Legible systemNames[r]? := legible_getElem? (by decide +kernel) r
  simp [sysreg, hlegible, show systemNames[r]?.isSome by simp [systemNames, h]]

@[simp] theorem meets_small {v : Nat} (h : v < 32) : (small v).Meets C M := by
  simp [small, h]

@[simp] theorem meets_simm : (simm w).Meets C M := by
  simp [simm, immS]

@[simp] theorem meets_uimm : (uimm w).Meets C M := by
  simp [uimm]

@[simp] theorem meets_based (size : UInt8) : (based w size).Meets C MemoryOperand.Based := by
  simp [based, MemoryOperand.Based]

@[simp] theorem meets_plain {m : String} {os : List Operand} :
    Meets C M (plain m os) ↔ ∀ o ∈ os, o.Meets C M := meets_some

/-! ## The families -/

theorem meets_special : Meets C M (special w) := by
  unfold special
  split <;> simp [fixedShift, variableShift, threeRegs, twoSources, fromFirst, fromSecond]

theorem meets_special2 : Meets C M (special2 w) := by
  unfold special2
  split <;> simp [threeRegs, twoSources, fromFirst]

/-- The word says that a bit field is a whole register. -/
def CountsAll (w : UInt32) : Prop :=
  bits w 31 26 = 0x1F ∧ rd w = 31 ∧ (funct w = 0 ∨ funct w = 4 ∧ sa w = 0)

instance (w : UInt32) : Decidable (CountsAll w) := inferInstanceAs (Decidable (_ ∧ _))

theorem meets_special3 (hmajor : bits w 31 26 = 0x1F) : Meets (CountsAll w) M (special3 w) := by
  have hd : rd w < 32 := rd_lt
  unfold special3
  split
  · rename_i hext
    have hsize : (small (rd w + 1)).Meets (CountsAll w) M :=
      Operand.meets_decimalImm_of (show rd w + 1 ≤ 32 by omega) fun (h : rd w + 1 = 32) =>
        ⟨hmajor, by omega, .inl hext⟩
    simp [hsize]
  · rename_i hins
    have hsize : (small (rd w - sa w + 1)).Meets (CountsAll w) M :=
      Operand.meets_decimalImm_of (show rd w - sa w + 1 ≤ 32 by omega)
        fun (h : rd w - sa w + 1 = 32) => ⟨hmajor, by omega, .inr ⟨hins, by omega⟩⟩
    simp [hsize]
  · split <;> simp [fromSecond]
  · simp
  · simp

theorem meets_regimm : Meets C MemoryOperand.Based (regimm w a) := by
  unfold regimm
  split <;> simp [branchTo, jumpTo, callTo]

theorem meets_compare (short full : String) : Meets C M (compare short full w a) := by
  simp [compare, branchTo]

theorem meets_cop0 : Meets C M (cop0 w) := by
  unfold cop0
  split
  · simp
  · simp
  · simp
  · split
    · simp
    · split <;> simp

theorem meets_cop1 : Meets C M (cop1 w a) := by
  unfold cop1
  split <;> simp [branchTo]

theorem meets_access : Meets C MemoryOperand.Based (access w) := by
  unfold access
  split <;> simp

theorem meets_immediate : Meets C M (immediate w) := by
  unfold immediate
  split <;> simp

/-- **What a word shows.** -/
theorem meets_decode : Meets (CountsAll w) MemoryOperand.Based (decode w a) := by
  unfold decode
  split
  · exact meets_special
  · exact meets_regimm
  · simp
  · simp
  · simp [jumpTo, meets_compare]
  · exact meets_compare _ _
  · simp [branchTo]
  · simp [branchTo]
  · exact meets_cop0
  · exact meets_cop1
  · exact meets_compare _ _
  · exact meets_compare _ _
  · simp [branchTo]
  · simp [branchTo]
  · exact meets_special2
  · exact meets_special3 ‹_›
  · simp [meets_immediate, meets_access]

/-- A word that says so shows a number that does not fit. -/
theorem exists_exceeds (h : CountsAll w) (a : UInt64) :
    ∃ op ∈ decode w a, ∃ i, .immediate i ∈ op.operands ∧ i.Exceeds ∧ i.width = 5 := by
  obtain ⟨hmajor, hd, hkind⟩ := h
  have hdecode : decode w a = special3 w := by simp [decode, hmajor]
  rcases hkind with hext | ⟨hins, hsa⟩
  · have hspecial : special3 w
        = plain "ext" [greg (rt w), greg (rs w), small (sa w), small 32] := by
      simp [special3, hext, hd]
    refine ⟨_, hdecode.trans hspecial, { value := 32, width := 5 }, ?_, ⟨rfl, rfl⟩, rfl⟩
    exact List.mem_of_mem_getLast? rfl
  · have hspecial : special3 w
        = plain "ins" [greg (rt w), greg (rs w), small 0, small 32] := by
      simp [special3, hins, hd, hsa]
    refine ⟨_, hdecode.trans hspecial, { value := 32, width := 5 }, ?_, ⟨rfl, rfl⟩, rfl⟩
    exact List.mem_of_mem_getLast? rfl

end Disassembler.Mips
