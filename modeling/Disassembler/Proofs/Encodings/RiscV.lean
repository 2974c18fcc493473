import Disassembler.Proofs.Encodings.Assembly

/-!
# Relative encodings of RISC-V

`jal` and the conditional branches, with the immediates of the J and B formats put together as their
formats say.
-/

namespace Disassembler.RiscV

/-- A condition of a branch. -/
inductive Comparison where
  | eq
  | ne
  | lt
  | ge
  | ltu
  | geu

/-- The minor opcode of a condition. -/
def Comparison.funct3 : Comparison → Nat
  | eq => 0
  | ne => 1
  | lt => 4
  | ge => 5
  | ltu => 6
  | geu => 7

/-- An instruction with an offset. -/
inductive Relative where
  | jal (rd : Fin 32)
  | branch (c : Comparison) (rs1 rs2 : Fin 32)

namespace Relative

/-- The word with an offset. -/
def word (o : Int) : Relative → UInt32
  | jal rd => wordOf [(1, offsetBits o 20 20), (10, offsetBits o 10 1), (1, offsetBits o 11 11),
      (8, offsetBits o 19 12), (5, rd), (7, 0x6F)]
  | branch c rs1 rs2 => wordOf [(1, offsetBits o 12 12), (6, offsetBits o 10 5), (5, rs2), (5, rs1),
      (3, c.funct3), (4, offsetBits o 4 1), (1, offsetBits o 11 11), (7, 0x63)]

/-- The offsets that can be encoded. -/
def Encodes (o : Int) : Relative → Prop
  | jal _ => Reaches 20 1 o
  | branch .. => Reaches 12 1 o

end Relative

variable {o : Int}

theorem refers_jal (rd : Fin 32) (h : Reaches 20 1 o) (a : UInt64) :
    Refers (decode ((Relative.jal rd).word o) a) (some (moveBy a o)) [moveBy a o] := by
  have h20 : offsetBits o 20 20 < 2 := offsetBits_lt o 20 20
  have h10 : offsetBits o 10 1 < 1024 := offsetBits_lt o 10 1
  have h11 : offsetBits o 11 11 < 2 := offsetBits_lt o 11 11
  have h19 : offsetBits o 19 12 < 256 := offsetBits_lt o 19 12
  have hrd := rd.isLt
  generalize hword : (Relative.jal rd).word o = w
  have hw := toNat_of_wordOf_eq hword (by simp only [List.foldl]; omega)
  simp only [List.foldl] at hw
  have hopcode : bits w 6 0 = 0x6F := by rw [bits_eq]; omega
  -- the parts of the offset are put side by side, from the highest down; the lowest bit is zero
  have hoffset : immJ w = o := by
    have hhigh : bits w 31 31 = offsetBits o 20 20 := by rw [bits_eq]; omega
    have hmiddle : bits w 19 12 = offsetBits o 19 12 := by rw [bits_eq]; omega
    have hbit : bits w 20 20 = offsetBits o 11 11 := by rw [bits_eq]; omega
    have hlow : bits w 30 21 = offsetBits o 10 1 := by rw [bits_eq]; omega
    obtain ⟨ho, hzero⟩ := h.signExtend_even
    rw [← ho, immJ, hhigh, hmiddle, hbit, hlow,
      ← offsetBits_split o 20 19 0 (by decide) (by decide),
      ← offsetBits_split o 19 11 0 (by decide) (by decide),
      ← offsetBits_split o 11 10 0 (by decide) (by decide),
      ← offsetBits_split o 10 0 0 (by decide) (by decide), hzero]
    refine congrArg (signExtend _) ?_
    simp only [Nat.shiftLeft_eq, Nat.reduceAdd, Nat.reduceSub, Nat.reducePow]
    omega
  simp only [decode, hopcode, refers_some, jal, hoffset]
  simp [Operation.refers_withTarget]

theorem refers_branch (c : Comparison) (rs1 rs2 : Fin 32) (h : Reaches 12 1 o) (a : UInt64) :
    Refers (decode ((Relative.branch c rs1 rs2).word o) a) (some (moveBy a o)) [moveBy a o] := by
  have h12 : offsetBits o 12 12 < 2 := offsetBits_lt o 12 12
  have h10 : offsetBits o 10 5 < 64 := offsetBits_lt o 10 5
  have h4 : offsetBits o 4 1 < 16 := offsetBits_lt o 4 1
  have h11 : offsetBits o 11 11 < 2 := offsetBits_lt o 11 11
  have hrs1 := rs1.isLt
  have hrs2 := rs2.isLt
  have hc : c.funct3 < 8 := by cases c <;> decide
  generalize hword : (Relative.branch c rs1 rs2).word o = w
  have hw := toNat_of_wordOf_eq hword (by simp only [List.foldl]; omega)
  simp only [List.foldl] at hw
  have hopcode : bits w 6 0 = 0x63 := by rw [bits_eq]; omega
  have hfunct3 : funct3 w = c.funct3 := by rw [funct3, bits_eq]; omega
  -- bit 11 is where `jal` has a register, and the lowest bit is again zero
  have hoffset : immB w = o := by
    have hhigh : bits w 31 31 = offsetBits o 12 12 := by rw [bits_eq]; omega
    have hbit : bits w 7 7 = offsetBits o 11 11 := by rw [bits_eq]; omega
    have hmiddle : bits w 30 25 = offsetBits o 10 5 := by rw [bits_eq]; omega
    have hlow : bits w 11 8 = offsetBits o 4 1 := by rw [bits_eq]; omega
    obtain ⟨ho, hzero⟩ := h.signExtend_even
    rw [← ho, immB, hhigh, hbit, hmiddle, hlow,
      ← offsetBits_split o 12 11 0 (by decide) (by decide),
      ← offsetBits_split o 11 10 0 (by decide) (by decide),
      ← offsetBits_split o 10 4 0 (by decide) (by decide),
      ← offsetBits_split o 4 0 0 (by decide) (by decide), hzero]
    refine congrArg (signExtend _) ?_
    simp only [Nat.shiftLeft_eq, Nat.reduceAdd, Nat.reduceSub, Nat.reducePow]
    omega
  simp only [decode, hopcode, branch, hfunct3, hoffset]
  cases c <;> simp [Comparison.funct3, Operation.refers_withTarget]

/-- **Offsets are decoded as encoded**: every jump and conditional branch leads to the address moved
by its offset. -/
theorem refers_decode (e : Relative) (h : e.Encodes o) (a : UInt64) :
    Refers (decode (e.word o) a) (some (moveBy a o)) [moveBy a o] := by
  cases e with
  | jal rd => exact refers_jal rd h a
  | branch c rs1 rs2 => exact refers_branch c rs1 rs2 h a

end Disassembler.RiscV
