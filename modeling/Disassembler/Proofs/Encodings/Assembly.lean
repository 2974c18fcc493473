import Disassembler.Proofs.Fields
import Disassembler.Proofs.Targets
import Mathlib.Algebra.Order.Ring.Int
import Mathlib.Tactic.Ring

/-!
# Assembling words

How a manual puts a word together, apart from any decoder: from fields, each with its number of bits,
some of which are taken from the two's complement of an offset. An encoding can hold the offsets of a
certain reach. Taking the fields of such an offset apart and extending the sign gives it back.
-/

namespace Disassembler

/-! ## Words of fields -/

/-- A word of fields, each given by the number of its bits and its value, from the highest down. -/
def wordOf (fields : List (Nat × Nat)) : UInt32 :=
  UInt32.ofNat (fields.foldl (fun n f => n * 2 ^ f.1 + f.2) 0)

theorem toNat_of_wordOf_eq {fields : List (Nat × Nat)} {w : UInt32} (hw : wordOf fields = w)
    (h : fields.foldl (fun n f => n * 2 ^ f.1 + f.2) 0 < 2 ^ 32) :
    w.toNat = fields.foldl (fun n f => n * 2 ^ f.1 + f.2) 0 := by
  rw [← hw, wordOf, UInt32.toNat_ofNat', Nat.mod_eq_of_lt h]

/-- A bit that is a field by itself. -/
theorem bit_eq {w : UInt32} {i : Nat} {b : Bool} (h : bits w i i = b.toNat) : bit w i = b := by
  rw [bit, h]
  cases b <;> rfl

/-! ## Offsets -/

/-- Bits `hi` down to `lo` of an offset, in two's complement. -/
def offsetBits (o : Int) (hi lo : Nat) : Nat :=
  (o / ((2 ^ lo : Nat) : Int) % ((2 ^ (hi + 1 - lo) : Nat) : Int)).toNat

theorem cast_offsetBits (o : Int) (hi lo : Nat) :
    (offsetBits o hi lo : Int) = o / ((2 ^ lo : Nat) : Int) % ((2 ^ (hi + 1 - lo) : Nat) : Int) :=
  Int.toNat_of_nonneg (Int.emod_nonneg _ (Int.ofNat_ne_zero.mpr (Nat.two_pow_pos _).ne'))

theorem offsetBits_lt (o : Int) (hi lo : Nat) : offsetBits o hi lo < 2 ^ (hi + 1 - lo) := by
  have hlt := Int.emod_lt_of_pos (o / ((2 ^ lo : Nat) : Int))
    (Int.ofNat_lt.mpr (Nat.two_pow_pos (hi + 1 - lo)))
  rw [← cast_offsetBits] at hlt
  exact Int.ofNat_lt.mp hlt

/-- A remainder modulo a product has two digits. -/
theorem emod_mul_eq (q n : Int) {m : Int} (hm : 0 ≤ m) : q % (m * n) = q / m % n * m + q % m := by
  rw [Int.emod_def q (m * n), ← Int.ediv_ediv_of_nonneg hm, Int.emod_def q m,
    Int.emod_def (q / m) n]
  ring

/-- Neighbouring fields of an offset make one. -/
theorem offsetBits_split (o : Int) (hi mid lo : Nat) (hlo : lo ≤ mid + 1) (hmid : mid ≤ hi) :
    offsetBits o hi (mid + 1) * 2 ^ (mid + 1 - lo) + offsetBits o mid lo = offsetBits o hi lo := by
  have hwidth : 2 ^ (hi + 1 - lo) = 2 ^ (mid + 1 - lo) * 2 ^ (hi + 1 - (mid + 1)) := by
    rw [← Nat.pow_add]
    congr 1
    omega
  have hpower : 2 ^ (mid + 1) = 2 ^ lo * 2 ^ (mid + 1 - lo) := by
    rw [← Nat.pow_add, Nat.add_sub_cancel' hlo]
  refine Int.ofNat_inj.mp ?_
  rw [Int.natCast_add, Int.natCast_mul, cast_offsetBits, cast_offsetBits, cast_offsetBits, hwidth,
    hpower, Int.natCast_mul, Int.natCast_mul, emod_mul_eq _ _ (Int.natCast_nonneg _),
    Int.ediv_ediv_of_nonneg (Int.natCast_nonneg _)]

/-- The offsets below two to some power in either direction that are multiples of another. -/
structure Reaches (reach scale : Nat) (o : Int) : Prop where
  multiple : o % ((2 ^ scale : Nat) : Int) = 0
  lower : -((2 ^ reach : Nat) : Int) ≤ o
  upper : o < ((2 ^ reach : Nat) : Int)

/-- **An offset is known from its field**, up to the bits that are left out. -/
theorem Reaches.signExtend_eq_ediv {reach unit scale : Nat} {o : Int} (h : Reaches reach unit o)
    (hscale : scale ≤ reach) :
    signExtend (reach + 1 - scale) (offsetBits o reach scale) = o / ((2 ^ scale : Nat) : Int) := by
  have hpos : (0 : Int) < ((2 ^ scale : Nat) : Int) := Int.ofNat_lt.mpr (Nat.two_pow_pos scale)
  have hreach : ((2 ^ reach : Nat) : Int)
      = ((2 ^ (reach - scale) : Nat) : Int) * ((2 ^ scale : Nat) : Int) := by
    rw [← Int.natCast_mul, ← Nat.pow_add, Nat.sub_add_cancel hscale]
  have hlower : -((2 ^ (reach - scale) : Nat) : Int) ≤ o / ((2 ^ scale : Nat) : Int) :=
    (Int.le_ediv_iff_mul_le hpos).mpr (by rw [Int.neg_mul, ← hreach]; exact h.lower)
  have hupper : o / ((2 ^ scale : Nat) : Int) < ((2 ^ (reach - scale) : Nat) : Int) :=
    (Int.ediv_lt_iff_lt_mul hpos).mpr (by rw [← hreach]; exact h.upper)
  have hdouble : 2 ^ (reach + 1 - scale) = 2 * 2 ^ (reach - scale) := by
    rw [← Nat.pow_succ']
    congr 1
    omega
  rw [signExtend, cast_offsetBits, Nat.one_shiftLeft, Int.emod_bmod,
    Int.bmod_eq_of_le (by omega) (by omega)]

/-- An offset whose field leaves out the bits that are zero. -/
theorem Reaches.signExtend_eq {reach scale : Nat} {o : Int} (h : Reaches reach scale o)
    (hscale : scale ≤ reach) :
    ((2 ^ scale : Nat) : Int) * signExtend (reach + 1 - scale) (offsetBits o reach scale) = o := by
  rw [h.signExtend_eq_ediv hscale, Int.mul_ediv_cancel_of_emod_eq_zero h.multiple]

/-- An offset in bytes. -/
theorem Reaches.signExtend_eq_self {reach : Nat} {o : Int} (h : Reaches reach 0 o) :
    signExtend (reach + 1) (offsetBits o reach 0) = o := by
  have ho := h.signExtend_eq (Nat.zero_le reach)
  rwa [Nat.pow_zero, Nat.cast_one, Int.one_mul, Nat.sub_zero] at ho

/-- All bits of an offset that is even, the lowest among them. -/
theorem Reaches.signExtend_even {reach : Nat} {o : Int} (h : Reaches reach 1 o) :
    signExtend (reach + 1) (offsetBits o reach 0) = o ∧ offsetBits o 0 0 = 0 := by
  have heven := h.multiple
  have hall : Reaches reach 0 o := ⟨Int.emod_one o, h.lower, h.upper⟩
  exact ⟨hall.signExtend_eq_self, by simpa [offsetBits] using heven.le⟩

/-! ## What an operation refers to -/

/-- The flow leads to the target, if there is one, and the operands stand for the addresses. -/
structure Operation.Refers (op : Operation) (target : Option UInt64) (addresses : List UInt64) :
    Prop where
  flow : op.flow.target? = target
  operands : op.operands.filterMap Operand.target? = addresses

/-- Something is encoded, and it refers to what is said. -/
def Refers (x : Option Operation) (target : Option UInt64) (addresses : List UInt64) : Prop :=
  ∃ op ∈ x, op.Refers target addresses

theorem Operand.Absolute.target? {o : Operand} (h : o.Absolute) : o.target? = none := by
  cases o with
  | memory m => exact h
  | relative t => exact absurd h id
  | _ => rfl

theorem filterMap_target?_of_absolute {os : List Operand} (h : ∀ o ∈ os, o.Absolute) :
    os.filterMap Operand.target? = [] :=
  List.filterMap_eq_nil_iff.mpr fun o ho => (h o ho).target?

section

variable {t : UInt64} {target : Option UInt64} {addresses : List UInt64}

@[simp] theorem Operation.refers_mk {m : String} {os : List Operand} {f : Flow} :
    (Operation.mk m os f).Refers target addresses
      ↔ f.target? = target ∧ os.filterMap Operand.target? = addresses :=
  ⟨fun h => ⟨h.flow, h.operands⟩, fun h => ⟨h.1, h.2⟩⟩

@[simp] theorem Operation.refers_ite {p : Prop} [Decidable p] {op op' : Operation} :
    (if p then op else op').Refers target addresses
      ↔ (p → op.Refers target addresses) ∧ (¬p → op'.Refers target addresses) := by
  split <;> simp [*]

/-- An operation whose last operand is its target. -/
theorem Operation.refers_withTarget {os : List Operand} {kind : UInt64 → Flow}
    (hos : ∀ o ∈ os, o.Absolute) (hkind : Flow.Leads kind) (m : String) (t : UInt64) :
    (withTarget m os kind t).Refers (some t) [t] := by
  refine ⟨hkind t, ?_⟩
  rw [withTarget, List.filterMap_append, filterMap_target?_of_absolute hos]
  rfl

@[simp] theorem refers_ite {p : Prop} [Decidable p] {x y : Option Operation} :
    Refers (if p then x else y) target addresses
      ↔ (p → Refers x target addresses) ∧ (¬p → Refers y target addresses) := by
  split <;> simp [*]

@[simp] theorem refers_some {op : Operation} :
    Refers (some op) target addresses ↔ op.Refers target addresses := by
  simp [Refers]

end

end Disassembler
