import Disassembler.Word
import Mathlib.Algebra.Group.Int.Defs
import Mathlib.Algebra.Group.Nat.Defs

/-!
# Moving addresses

Moving all addresses by one distance modulo `2 ^ 64` is a bijection that keeps sums and
differences, so questions about equality and about distances have the same answer before and
after. Order is another matter: an address may wrap. But between addresses that can be moved
without wrapping the order stays, and so does membership in a range whose two ends can.
-/

namespace Disassembler

/-! ## Equalities -/

theorem moveBy_add (a b : UInt64) (d : Int) : moveBy (a + b) d = moveBy a d + b := by
  simp only [moveBy, UInt64.add_assoc, UInt64.add_comm b]

theorem moveBy_comm (a : UInt64) (d e : Int) :
    moveBy (moveBy a d) e = moveBy (moveBy a e) d := by
  simp only [moveBy, UInt64.add_assoc, UInt64.add_comm (UInt64.ofInt d)]

theorem moveBy_inj {a b : UInt64} {d : Int} : moveBy a d = moveBy b d ↔ a = b :=
  UInt64.add_left_inj _

theorem moveBy_sub (a b : UInt64) (d : Int) : moveBy a d - moveBy b d = a - b := by
  rw [UInt64.sub_eq_iff_eq_add, moveBy, moveBy, ← UInt64.add_assoc, UInt64.sub_add_cancel]

/-- Moving back. -/
theorem moveBy_neg (a : UInt64) (d : Int) : moveBy (moveBy a d) (-d) = a := by
  rw [moveBy, moveBy, UInt64.add_assoc, ← UInt64.ofInt_add, Int.add_right_neg]
  exact UInt64.add_zero a

theorem moveBy_beq (a b : UInt64) (d : Int) : (moveBy a d == moveBy b d) = (a == b) := by
  rw [Bool.eq_iff_iff, beq_iff_eq, beq_iff_eq, moveBy_inj]

/-! ## Addresses that do not wrap -/

/-- The address can be moved by a distance without wrapping. -/
def Movable (d : Int) (a : UInt64) : Prop := 0 ≤ a.toNat + d ∧ a.toNat + d < 2 ^ 64

variable {d : Int} {a b t : UInt64}

theorem Movable.toNat (h : Movable d a) : ((moveBy a d).toNat : Int) = a.toNat + d := by
  have hlo := h.1
  have hhi := h.2
  have hd : (UInt64.ofInt d).toNat = (d % 2 ^ 64).toNat := by
    simp only [UInt64.ofInt, UInt64.toNat_ofNat']
    omega
  simp only [moveBy, UInt64.toNat_add, hd]
  omega

/-- An address between two that can be moved can be moved. -/
theorem Movable.between (ha : Movable d a) (hb : Movable d b) (hlo : a ≤ t) (hhi : t ≤ b) :
    Movable d t := by
  have hlo := UInt64.le_iff_toNat_le.mp hlo
  have hhi := UInt64.le_iff_toNat_le.mp hhi
  have ha := ha.1
  have hb := hb.2
  unfold Movable
  omega

/-- **Order stays between addresses that do not wrap.** -/
theorem Movable.le_iff (ha : Movable d a) (hb : Movable d b) :
    moveBy a d ≤ moveBy b d ↔ a ≤ b := by
  have ha := ha.toNat
  have hb := hb.toNat
  rw [UInt64.le_iff_toNat_le, UInt64.le_iff_toNat_le]
  omega

theorem Movable.lt_iff (ha : Movable d a) (hb : Movable d b) :
    moveBy a d < moveBy b d ↔ a < b := by
  have ha := ha.toNat
  have hb := hb.toNat
  rw [UInt64.lt_iff_toNat_lt, UInt64.lt_iff_toNat_lt]
  omega

/-- What can be moved can be moved back. -/
theorem Movable.neg (h : Movable d a) : Movable (-d) (moveBy a d) := by
  have hlt := a.toNat_lt
  have hmoved := h.toNat
  unfold Movable
  omega

/-- **An address lies in a range after the move just if it did before**, whether it wraps itself
or not. -/
theorem Movable.range_iff (ha : Movable d a) (hb : Movable d b) :
    moveBy a d ≤ moveBy t d ∧ moveBy t d < moveBy b d ↔ a ≤ t ∧ t < b := by
  constructor
  · rintro ⟨hlo, hhi⟩
    -- an address in the moved range can be moved back
    have ht := (ha.neg.between hb.neg hlo (UInt64.le_of_lt hhi)).neg
    rw [Int.neg_neg, moveBy_neg] at ht
    exact ⟨(ha.le_iff ht).mp hlo, (ht.lt_iff hb).mp hhi⟩
  · rintro ⟨hlo, hhi⟩
    have ht := ha.between hb hlo (UInt64.le_of_lt hhi)
    exact ⟨(ha.le_iff ht).mpr hlo, (ht.lt_iff hb).mpr hhi⟩

/-- The same of a range without its start. -/
theorem Movable.inside_iff (ha : Movable d a) (hb : Movable d b) :
    moveBy a d < moveBy t d ∧ moveBy t d < moveBy b d ↔ a < t ∧ t < b := by
  have hrange := ha.range_iff hb (t := t)
  have hne : moveBy a d ≠ moveBy t d ↔ a ≠ t := not_congr moveBy_inj
  constructor
  · rintro ⟨hlo, hhi⟩
    obtain ⟨hle, hlt⟩ := hrange.mp ⟨UInt64.le_of_lt hlo, hhi⟩
    exact ⟨UInt64.lt_of_le_of_ne hle (hne.mp (UInt64.ne_of_lt hlo)), hlt⟩
  · rintro ⟨hlo, hhi⟩
    obtain ⟨hle, hlt⟩ := hrange.mpr ⟨UInt64.le_of_lt hlo, hhi⟩
    exact ⟨UInt64.lt_of_le_of_ne hle (hne.mpr (UInt64.ne_of_lt hlo)), hlt⟩

end Disassembler
