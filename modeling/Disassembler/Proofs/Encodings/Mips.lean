import Disassembler.Proofs.Encodings.Assembly

/-!
# Relative encodings of MIPS

All branches have their offset in one field of sixteen bits, so it does not matter which one it is:
the comparisons of two registers, those of one register with zero, and the tests of a floating-point
condition, each also in its likely form.
-/

namespace Disassembler.Mips

/-- A condition on one or two registers that has a major opcode. -/
inductive Comparison where
  | eq
  | ne
  | lez
  | gtz

/-- The lowest bits of the major opcode of a condition. -/
def Comparison.code : Comparison → Nat
  | eq => 0
  | ne => 1
  | lez => 2
  | gtz => 3

/-- An instruction with an offset. -/
inductive Relative where
  | compare (c : Comparison) (likely : Bool) (rs rt : Fin 32)
  | sign (nonnegative likely link : Bool) (rs : Fin 32)
  | flag (number : Fin 8) (holds likely : Bool)

namespace Relative

/-- The word with an offset. -/
def word (o : Int) : Relative → UInt32
  | compare c likely rs rt =>
    wordOf [(1, 0), (1, likely.toNat), (2, 1), (2, c.code), (5, rs), (5, rt), (16, offsetBits o 17 2)]
  | sign nonnegative likely link rs =>
    wordOf [(6, 1), (5, rs), (1, link.toNat), (3, likely.toNat), (1, nonnegative.toNat),
      (16, offsetBits o 17 2)]
  | flag number holds likely =>
    wordOf [(6, 0x11), (5, 8), (3, number), (1, likely.toNat), (1, holds.toNat),
      (16, offsetBits o 17 2)]

end Relative

variable {o : Int} {w : UInt32} {a t : UInt64}

/-- The target of a branch is known from its lowest field alone. -/
theorem branchTarget_eq (h : Reaches 17 2 o) (hfield : bits w 15 0 = offsetBits o 17 2)
    (a : UInt64) : branchTarget w a = low32 (moveBy (a + 4) o) := by
  rw [branchTarget, immS, immU, hfield]
  exact congrArg (fun d => low32 (moveBy (a + 4) d)) (h.signExtend_eq (by decide))

@[simp] theorem refers_branchTo {os : List Operand} (hos : ∀ o ∈ os, o.Absolute) (m : String) :
    Refers (branchTo m os w a) (some (branchTarget w a)) [branchTarget w a] := by
  simp [branchTo, Operation.refers_withTarget hos]

@[simp] theorem refers_jumpTo (m : String) :
    Refers (jumpTo m w a) (some (branchTarget w a)) [branchTarget w a] := by
  simp [jumpTo, Operation.refers_withTarget]

@[simp] theorem refers_callTo {os : List Operand} (hos : ∀ o ∈ os, o.Absolute) (m : String) :
    Refers (callTo m os w a) (some (branchTarget w a)) [branchTarget w a] := by
  simp [callTo, Operation.refers_withTarget hos]

@[simp] theorem refers_compare (short full : String) :
    Refers (compare short full w a) (some (branchTarget w a)) [branchTarget w a] := by
  simp [compare]

theorem refers_comparison (c : Comparison) (likely : Bool) (rs rt : Fin 32) (h : Reaches 17 2 o)
    (a : UInt64) :
    Refers (decode ((Relative.compare c likely rs rt).word o) a) (some (low32 (moveBy (a + 4) o)))
      [low32 (moveBy (a + 4) o)] := by
  have ho : offsetBits o 17 2 < 2 ^ 16 := offsetBits_lt o 17 2
  have hlikely := likely.toNat_lt
  have hc : c.code < 4 := by cases c <;> decide
  have hrs := rs.isLt
  have hrt := rt.isLt
  generalize hword : (Relative.compare c likely rs rt).word o = w
  have hw := toNat_of_wordOf_eq hword (by simp only [List.foldl]; omega)
  simp only [List.foldl] at hw
  have hmajor : bits w 31 26 = 16 * likely.toNat + 4 + c.code := by rw [bits_eq]; omega
  have hfield : bits w 15 0 = offsetBits o 17 2 := by rw [bits_eq]; omega
  rw [← branchTarget_eq h hfield]
  cases likely <;> cases c <;> simp [decode, hmajor, Comparison.code]

theorem refers_sign (nonnegative likely link : Bool) (rs : Fin 32) (h : Reaches 17 2 o)
    (a : UInt64) :
    Refers (decode ((Relative.sign nonnegative likely link rs).word o) a)
      (some (low32 (moveBy (a + 4) o))) [low32 (moveBy (a + 4) o)] := by
  have ho : offsetBits o 17 2 < 2 ^ 16 := offsetBits_lt o 17 2
  have hnonnegative := nonnegative.toNat_lt
  have hlikely := likely.toNat_lt
  have hlink := link.toNat_lt
  have hrs := rs.isLt
  generalize hword : (Relative.sign nonnegative likely link rs).word o = w
  have hw := toNat_of_wordOf_eq hword (by simp only [List.foldl]; omega)
  simp only [List.foldl] at hw
  have hmajor : bits w 31 26 = 1 := by rw [bits_eq]; omega
  -- the second register field is a minor opcode here
  have hminor : rt w = 16 * link.toNat + 2 * likely.toNat + nonnegative.toNat := by
    rw [rt, bits_eq]
    omega
  have hfield : bits w 15 0 = offsetBits o 17 2 := by rw [bits_eq]; omega
  rw [← branchTarget_eq h hfield]
  cases nonnegative <;> cases likely <;> cases link <;> simp [decode, hmajor, regimm, hminor]

theorem refers_flag (number : Fin 8) (holds likely : Bool) (h : Reaches 17 2 o) (a : UInt64) :
    Refers (decode ((Relative.flag number holds likely).word o) a)
      (some (low32 (moveBy (a + 4) o))) [low32 (moveBy (a + 4) o)] := by
  have ho : offsetBits o 17 2 < 2 ^ 16 := offsetBits_lt o 17 2
  have hholds := holds.toNat_lt
  have hlikely := likely.toNat_lt
  have hnumber := number.isLt
  generalize hword : (Relative.flag number holds likely).word o = w
  have hw := toNat_of_wordOf_eq hword (by simp only [List.foldl]; omega)
  simp only [List.foldl] at hw
  have hmajor : bits w 31 26 = 0x11 := by rw [bits_eq]; omega
  have hsource : rs w = 8 := by rw [rs, bits_eq]; omega
  have hminor : rt w % 4 = 2 * likely.toNat + holds.toNat := by
    rw [rt, bits_eq]
    omega
  have hfield : bits w 15 0 = offsetBits o 17 2 := by rw [bits_eq]; omega
  rw [← branchTarget_eq h hfield]
  cases holds <;> cases likely <;> simp [decode, hmajor, cop1, hsource, hminor, conditionBranches]

/-- **Offsets are decoded as encoded**: every branch leads to its delay slot moved by the offset. -/
theorem refers_decode (e : Relative) (h : Reaches 17 2 o) (a : UInt64) :
    Refers (decode (e.word o) a) (some (low32 (moveBy (a + 4) o))) [low32 (moveBy (a + 4) o)] := by
  cases e with
  | compare c likely rs rt => exact refers_comparison c likely rs rt h a
  | sign nonnegative likely link rs => exact refers_sign nonnegative likely link rs h a
  | flag number holds likely => exact refers_flag number holds likely h a

end Disassembler.Mips
