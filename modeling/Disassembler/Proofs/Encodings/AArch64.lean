import Disassembler.Proofs.Encodings.Assembly

/-!
# Relative encodings of AArch64

The direct branches, the addresses of a byte or a page nearby, and the loads and prefetches of a
literal, with their offsets in the fields that their formats say.
-/

namespace Disassembler.AArch64

/-- What is done with a literal. -/
inductive Literal where
  | loadWord
  | loadDoubleword
  | loadSignedWord
  | prefetch
  | loadSingle
  | loadDouble
  | loadQuad

namespace Literal

/-- The opcode field. -/
def opc : Literal → Nat
  | loadWord | loadSingle => 0
  | loadDoubleword | loadDouble => 1
  | loadSignedWord | loadQuad => 2
  | prefetch => 3

/-- Is the register a vector register? -/
def vector : Literal → Bool
  | loadSingle | loadDouble | loadQuad => true
  | loadWord | loadDoubleword | loadSignedWord | prefetch => false

end Literal

/-- An instruction with an offset. -/
inductive Relative where
  | branch (link : Bool)
  | conditional (c : Fin 16)
  | compare (wide nonzero : Bool) (rt : Fin 32)
  | test (nonzero : Bool) (number : Fin 64) (rt : Fin 32)
  | address (rd : Fin 32)
  | page (rd : Fin 32)
  | literal (l : Literal) (rt : Fin 32)

namespace Relative

/-- The word with an offset. -/
def word (o : Int) : Relative → UInt32
  | branch link => wordOf [(1, link.toNat), (5, 0x05), (26, offsetBits o 27 2)]
  | conditional c => wordOf [(8, 0x54), (19, offsetBits o 20 2), (1, 0), (4, c)]
  | compare wide nonzero rt => wordOf [(1, wide.toNat), (6, 0x1A), (1, nonzero.toNat),
      (19, offsetBits o 20 2), (5, rt)]
  | test nonzero number rt => wordOf [(1, number / 32), (6, 0x1B), (1, nonzero.toNat),
      (5, number % 32), (14, offsetBits o 15 2), (5, rt)]
  | address rd => wordOf [(1, 0), (2, offsetBits o 1 0), (5, 0x10), (19, offsetBits o 20 2), (5, rd)]
  | page rd => wordOf [(1, 1), (2, offsetBits o 13 12), (5, 0x10), (19, offsetBits o 32 14), (5, rd)]
  | literal l rt => wordOf [(2, l.opc), (3, 3), (1, l.vector.toNat), (2, 0),
      (19, offsetBits o 20 2), (5, rt)]

/-- The offsets that can be encoded. -/
def Encodes (o : Int) : Relative → Prop
  | branch _ => Reaches 27 2 o
  | conditional _ | compare .. | literal .. => Reaches 20 2 o
  | test .. => Reaches 15 2 o
  | address _ => Reaches 20 0 o
  | page _ => Reaches 32 12 o

/-- Where the offset counts from: the instruction or its page. -/
def origin (a : UInt64) : Relative → UInt64
  | page _ => UInt64.ofNat (a.toNat >>> 12 <<< 12)
  | branch _ | conditional _ | compare .. | test .. | address _ | literal .. => a

/-- Does control go there? -/
def transfers : Relative → Bool
  | branch _ | conditional _ | compare .. | test .. => true
  | address _ | page _ | literal .. => false

end Relative

variable {o : Int} {w : UInt32}

/-- The branches apart from system instructions, by their major opcode. -/
theorem decode_of_branch (hmajor : bits w 28 26 = 5) (hsystem : bits w 31 22 ≠ 0x354)
    (a : UInt64) : decode w a = branch w a := by
  -- bit 25 is free here: it is the highest of the offset of `b` and chooses `tbz` over `cbz`
  have hcases : bits w 28 25 = 0xA ∨ bits w 28 25 = 0xB := by
    simp only [bits_eq] at hmajor ⊢
    omega
  rcases hcases with h | h <;> simp only [decode, h, if_neg hsystem]

theorem wordTarget_eq {reach field : Nat} (h : Reaches reach 2 o) (hreach : 2 ≤ reach)
    (hfield : field = offsetBits o reach 2) (a : UInt64) :
    wordTarget a (reach + 1 - 2) field = moveBy a o := by
  rw [wordTarget, hfield]
  exact congrArg (moveBy a) (h.signExtend_eq hreach)

theorem refers_branch (link : Bool) (h : Reaches 27 2 o) (a : UInt64) :
    Refers (decode ((Relative.branch link).word o) a) (some (moveBy a o)) [moveBy a o] := by
  have ho : offsetBits o 27 2 < 2 ^ 26 := offsetBits_lt o 27 2
  have hlink := link.toNat_lt
  generalize hword : (Relative.branch link).word o = w
  have hw := toNat_of_wordOf_eq hword (by simp only [List.foldl]; omega)
  simp only [List.foldl] at hw
  have hmajor : bits w 28 26 = 5 := by rw [bits_eq]; omega
  have hsystem : bits w 31 22 ≠ 0x354 := by rw [bits_eq]; omega
  have hopcode : bits w 30 26 = 5 := by rw [bits_eq]; omega
  have hfield : bits w 25 0 = offsetBits o 27 2 := by rw [bits_eq]; omega
  have htarget : wordTarget a 26 (bits w 25 0) = moveBy a o := wordTarget_eq h (by decide) hfield a
  rw [decode_of_branch hmajor hsystem, branch, if_pos hopcode, htarget]
  simp [Operation.refers_withTarget]

theorem refers_conditional (c : Fin 16) (h : Reaches 20 2 o) (a : UInt64) :
    Refers (decode ((Relative.conditional c).word o) a) (some (moveBy a o)) [moveBy a o] := by
  have ho : offsetBits o 20 2 < 2 ^ 19 := offsetBits_lt o 20 2
  have hc := c.isLt
  generalize hword : (Relative.conditional c).word o = w
  have hw := toNat_of_wordOf_eq hword (by simp only [List.foldl]; omega)
  simp only [List.foldl] at hw
  have hmajor : bits w 28 26 = 5 := by rw [bits_eq]; omega
  have hsystem : bits w 31 22 ≠ 0x354 := by rw [bits_eq]; omega
  have hdirect : bits w 30 26 ≠ 5 := by rw [bits_eq]; omega
  have hopcode : bits w 31 24 = 0x54 := by rw [bits_eq]; omega
  have hzero : bit w 4 = false := by rw [bit_eq_false_iff]; omega
  have hcondition : bits w 3 0 = c := by rw [bits_eq]; omega
  have hfield : bits w 23 5 = offsetBits o 20 2 := by rw [bits_eq]; omega
  have htarget : wordTarget a 19 (bits w 23 5) = moveBy a o := wordTarget_eq h (by decide) hfield a
  have hname : conditionNames[(c : Nat)]? = some conditionNames[c] := Array.getElem?_eq_getElem hc
  rw [decode_of_branch hmajor hsystem, branch, if_neg hdirect, if_pos ⟨hopcode, by simp [hzero]⟩,
    htarget, hcondition]
  simp [hname, Operation.refers_withTarget]

theorem refers_compare (wide nonzero : Bool) (rt : Fin 32) (h : Reaches 20 2 o) (a : UInt64) :
    Refers (decode ((Relative.compare wide nonzero rt).word o) a) (some (moveBy a o))
      [moveBy a o] := by
  have ho : offsetBits o 20 2 < 2 ^ 19 := offsetBits_lt o 20 2
  have hwide := wide.toNat_lt
  have hnonzero := nonzero.toNat_lt
  have hrt := rt.isLt
  generalize hword : (Relative.compare wide nonzero rt).word o = w
  have hw := toNat_of_wordOf_eq hword (by simp only [List.foldl]; omega)
  simp only [List.foldl] at hw
  have hmajor : bits w 28 26 = 5 := by rw [bits_eq]; omega
  have hsystem : bits w 31 22 ≠ 0x354 := by rw [bits_eq]; omega
  have hdirect : bits w 30 26 ≠ 5 := by rw [bits_eq]; omega
  have hconditional : bits w 31 24 ≠ 0x54 := by rw [bits_eq]; omega
  have hopcode : bits w 30 25 = 0x1A := by rw [bits_eq]; omega
  have hfield : bits w 23 5 = offsetBits o 20 2 := by rw [bits_eq]; omega
  have htarget : wordTarget a 19 (bits w 23 5) = moveBy a o := wordTarget_eq h (by decide) hfield a
  rw [decode_of_branch hmajor hsystem, branch, if_neg hdirect, if_neg (fun hp => hconditional hp.1),
    if_pos hopcode, htarget]
  simp [Operation.refers_withTarget]

theorem refers_test (nonzero : Bool) (number : Fin 64) (rt : Fin 32) (h : Reaches 15 2 o)
    (a : UInt64) :
    Refers (decode ((Relative.test nonzero number rt).word o) a) (some (moveBy a o))
      [moveBy a o] := by
  have ho : offsetBits o 15 2 < 2 ^ 14 := offsetBits_lt o 15 2
  have hnonzero := nonzero.toNat_lt
  have hnumber := number.isLt
  have hrt := rt.isLt
  generalize hword : (Relative.test nonzero number rt).word o = w
  have hw := toNat_of_wordOf_eq hword (by simp only [List.foldl]; omega)
  simp only [List.foldl] at hw
  have hmajor : bits w 28 26 = 5 := by rw [bits_eq]; omega
  have hsystem : bits w 31 22 ≠ 0x354 := by rw [bits_eq]; omega
  have hdirect : bits w 30 26 ≠ 5 := by rw [bits_eq]; omega
  have hconditional : bits w 31 24 ≠ 0x54 := by rw [bits_eq]; omega
  have hcompare : bits w 30 25 ≠ 0x1A := by rw [bits_eq]; omega
  have hopcode : bits w 30 25 = 0x1B := by rw [bits_eq]; omega
  have hfield : bits w 18 5 = offsetBits o 15 2 := by rw [bits_eq]; omega
  have htarget : wordTarget a 14 (bits w 18 5) = moveBy a o := wordTarget_eq h (by decide) hfield a
  rw [decode_of_branch hmajor hsystem, branch, if_neg hdirect, if_neg (fun hp => hconditional hp.1),
    if_neg hcompare, if_pos hopcode, htarget]
  simp [Operation.refers_withTarget]

/-- The addresses nearby, by their major opcode. -/
theorem decode_of_address (hmajor : bits w 28 24 = 0x10) (a : UInt64) :
    decode w a = pcAddress w a := by
  have hfamily : bits w 28 25 = 8 := by
    simp only [bits_eq] at hmajor ⊢
    omega
  have hclass : bits w 28 23 = 0x20 ∨ bits w 28 23 = 0x21 := by
    simp only [bits_eq] at hmajor ⊢
    omega
  rcases hclass with h | h <;> simp only [decode, hfamily, dataImmediate, h]

theorem refers_address (rd : Fin 32) (h : Reaches 20 0 o) (a : UInt64) :
    Refers (decode ((Relative.address rd).word o) a) none [moveBy a o] := by
  have hhigh : offsetBits o 20 2 < 2 ^ 19 := offsetBits_lt o 20 2
  have hlow : offsetBits o 1 0 < 4 := offsetBits_lt o 1 0
  have hrd := rd.isLt
  generalize hword : (Relative.address rd).word o = w
  have hw := toNat_of_wordOf_eq hword (by simp only [List.foldl]; omega)
  simp only [List.foldl] at hw
  have hmajor : bits w 28 24 = 0x10 := by rw [bits_eq]; omega
  have hbyte : bit w 31 = false := by rw [bit_eq_false_iff]; omega
  have hoffset : signExtend 21 (bits w 23 5 <<< 2 + bits w 30 29) = o := by
    have h23 : bits w 23 5 = offsetBits o 20 2 := by rw [bits_eq]; omega
    have h30 : bits w 30 29 = offsetBits o 1 0 := by rw [bits_eq]; omega
    rw [h23, h30, Nat.shiftLeft_eq]
    exact (congrArg (signExtend 21) (offsetBits_split o 20 1 0 (by decide) (by decide))).trans
      h.signExtend_eq_self
  rw [decode_of_address hmajor, pcAddress, hoffset, hbyte]
  exact ⟨_, rfl, rfl, rfl⟩

theorem refers_page (rd : Fin 32) (h : Reaches 32 12 o) (a : UInt64) :
    Refers (decode ((Relative.page rd).word o) a) none
      [moveBy (UInt64.ofNat (a.toNat >>> 12 <<< 12)) o] := by
  have hhigh : offsetBits o 32 14 < 2 ^ 19 := offsetBits_lt o 32 14
  have hlow : offsetBits o 13 12 < 4 := offsetBits_lt o 13 12
  have hrd := rd.isLt
  generalize hword : (Relative.page rd).word o = w
  have hw := toNat_of_wordOf_eq hword (by simp only [List.foldl]; omega)
  simp only [List.foldl] at hw
  have hmajor : bits w 28 24 = 0x10 := by rw [bits_eq]; omega
  have hpage : bit w 31 = true := by rw [bit_eq_true_iff]; omega
  have hoffset : (4096 : Int) * signExtend 21 (bits w 23 5 <<< 2 + bits w 30 29) = o := by
    have h23 : bits w 23 5 = offsetBits o 32 14 := by rw [bits_eq]; omega
    have h30 : bits w 30 29 = offsetBits o 13 12 := by rw [bits_eq]; omega
    rw [h23, h30, Nat.shiftLeft_eq]
    exact (congrArg (fun n => (4096 : Int) * signExtend 21 n)
      (offsetBits_split o 32 13 12 (by decide) (by decide))).trans (h.signExtend_eq (by decide))
  rw [decode_of_address hmajor, pcAddress, hoffset, hpage]
  exact ⟨_, rfl, rfl, rfl⟩

theorem refers_literal (l : Literal) (rt : Fin 32) (h : Reaches 20 2 o) (a : UInt64) :
    Refers (decode ((Relative.literal l rt).word o) a) none [moveBy a o] := by
  have ho : offsetBits o 20 2 < 2 ^ 19 := offsetBits_lt o 20 2
  have hopc : l.opc < 4 := by cases l <;> decide
  have hvector := l.vector.toNat_lt
  have hrt := rt.isLt
  generalize hword : (Relative.literal l rt).word o = w
  have hw := toNat_of_wordOf_eq hword (by simp only [List.foldl]; omega)
  simp only [List.foldl] at hw
  -- the bit of the vector registers is part of the major opcode
  have hfamily : bits w 28 25 = 12 + 2 * bits w 26 26 := by simp only [bits_eq]; omega
  have hclass : bits w 29 27 = 3 := by rw [bits_eq]; omega
  have hform : bits w 25 24 = 0 := by rw [bits_eq]; omega
  have hopc : bits w 31 30 = l.opc := by rw [bits_eq]; omega
  have hvector : bits w 26 26 = l.vector.toNat := by rw [bits_eq]; omega
  have hfield : bits w 23 5 = offsetBits o 20 2 := by rw [bits_eq]; omega
  have hoffset : (4 : Int) * signExtend 19 (bits w 23 5) = o := hfield ▸ h.signExtend_eq (by decide)
  have hdecode : decode w a = literal w a := by
    rw [hvector] at hfamily
    cases hv : l.vector <;> simp [decode, loadStore, hfamily, hv, hclass, hform]
  rw [hdecode, literal, bit_eq hvector, hopc, hoffset]
  cases l <;> exact ⟨_, rfl, rfl, rfl⟩

/-- **Offsets are decoded as encoded**: every encoding with an offset refers to where it counts from,
moved by the offset. -/
theorem refers_decode (e : Relative) (h : e.Encodes o) (a : UInt64) :
    Refers (decode (e.word o) a) (if e.transfers then some (moveBy (e.origin a) o) else none)
      [moveBy (e.origin a) o] := by
  cases e with
  | branch link => exact refers_branch link h a
  | conditional c => exact refers_conditional c h a
  | compare wide nonzero rt => exact refers_compare wide nonzero rt h a
  | test nonzero number rt => exact refers_test nonzero number rt h a
  | address rd => exact refers_address rd h a
  | page rd => exact refers_page rd h a
  | literal l rt => exact refers_literal l rt h a

end Disassembler.AArch64
