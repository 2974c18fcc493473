import Disassembler.Proofs.Fields
import Mathlib.Algebra.Group.Int.Defs

/-!
# What encodings show

An encoding shows registers, numbers, places in memory and targets. Each register should have a name,
and no name should look like a missing one; each number should fit the field that it was encoded in.
Whether an encoding shows only such operands, and which places in memory it shows, is settled by the
operands that it is built of; the lemmas about those decide it for each encoding in turn.
-/

namespace Disassembler

/-! ## Numbers and their fields -/

/-- The bounds of a number whose sign was extended. -/
theorem signExtend_bounds {n : Nat} (hn : n ≠ 0) (v : Nat) :
    -2 ^ (n - 1) ≤ signExtend n v ∧ signExtend n v < 2 ^ (n - 1) := by
  have hpos : 0 < 2 ^ n := Nat.two_pow_pos n
  have hdouble : 2 ^ n = 2 * 2 ^ (n - 1) := by
    rw [← Nat.pow_succ', Nat.succ_eq_add_one, Nat.sub_add_cancel (Nat.one_le_iff_ne_zero.mpr hn)]
  have hlow := Int.le_bmod (x := v) hpos
  have hhigh := Int.bmod_lt (x := v) hpos
  have hcast : ((2 ^ (n - 1) : Nat) : Int) = 2 ^ (n - 1) := Int.natCast_pow 2 (n - 1)
  rw [signExtend, Nat.one_shiftLeft, ← hcast]
  omega

namespace ImmediateOperand

/-- The number is one that the bits of its field can hold, with a sign if the field has one. -/
def Fits (i : ImmediateOperand) : Prop :=
  if i.signed then -2 ^ (i.width.toNat - 1) ≤ i.value ∧ i.value < 2 ^ (i.width.toNat - 1)
  else i.value % 2 ^ 64 < 2 ^ i.width.toNat

instance (i : ImmediateOperand) : Decidable i.Fits := inferInstanceAs (Decidable (ite _ _ _))

/-- The number is the first one that the bits of its field cannot hold. -/
structure Exceeds (i : ImmediateOperand) : Prop where
  unsigned : i.signed = false
  value : i.value = (2 ^ i.width.toNat : Nat)

/-- The number fits its field, unless `C` holds and it is the first one that does not. -/
def FitsUnless (C : Prop) (i : ImmediateOperand) : Prop := i.Fits ∨ C ∧ i.Exceeds

variable {i : ImmediateOperand} {v : Nat}

theorem fits_of_lt (hunsigned : i.signed = false) (hvalue : i.value = v)
    (h : v < 2 ^ i.width.toNat) : i.Fits := by
  rw [Fits, hunsigned, if_neg Bool.false_ne_true, hvalue]
  exact_mod_cast Nat.lt_of_le_of_lt (Nat.mod_le v (2 ^ 64)) h

theorem fits_of_signExtend {n : Nat} (hsigned : i.signed = true) (hn : n ≠ 0)
    (hwidth : i.width.toNat = n) (hvalue : i.value = signExtend n v) : i.Fits := by
  subst hwidth
  rw [Fits, if_pos hsigned, hvalue]
  exact signExtend_bounds hn v

/-- The first number that a field cannot hold does not fit. -/
theorem Exceeds.not_fits (h : i.Exceeds) (hwidth : i.width.toNat < 64) : ¬ i.Fits := by
  have hlt : 2 ^ i.width.toNat < 2 ^ 64 := Nat.pow_lt_pow_right (by decide) hwidth
  rw [Fits, h.unsigned, if_neg Bool.false_ne_true, h.value]
  have hmod : 2 ^ i.width.toNat % 2 ^ 64 = 2 ^ i.width.toNat := Nat.mod_eq_of_lt hlt
  exact_mod_cast Nat.not_lt_of_ge (Nat.le_of_eq hmod.symm)

end ImmediateOperand

/-! ## Names -/

/-- If there is a name, it is not the question mark that is printed for a missing one. -/
def Legible (name : Option String) : Prop := ∀ n ∈ name, n ≠ "?"

instance (name : Option String) : Decidable (Legible name) :=
  match name with
  | none => isTrue fun _ h => absurd h (by simp)
  | some n => decidable_of_iff (n ≠ "?") (by simp [Legible])

@[simp] theorem legible_none : Legible none := fun _ h => absurd h (by simp)

@[simp] theorem legible_some {n : String} : Legible (some n) ↔ n ≠ "?" := by simp [Legible]

/-- What is in a table of names is legible at every index. -/
theorem legible_getElem? {names : Array String} (h : "?" ∉ names) (i : Nat) : Legible names[i]? :=
  fun _ hn heq => h (heq ▸ Array.mem_of_getElem? hn)

/-- A name that is put together is longer than a question mark. -/
theorem append_ne_mark {stem rest : String} (h : 1 < stem.length + rest.length) :
    stem ++ rest ≠ "?" := by
  intro heq
  have hlength := congrArg String.length heq
  have hone : "?".length = 1 := rfl
  rw [String.length_append, hone] at hlength
  omega

/-- A register with a name, and with a legible one if it is shifted by a register. -/
structure RegisterOperand.Named (r : RegisterOperand) : Prop where
  isSome : r.name.isSome = true
  legible : Legible r.name
  shift : ∀ s ∈ r.shift, Legible s.register

/-- All names in a place in memory are legible. -/
structure MemoryOperand.Legible (m : MemoryOperand) : Prop where
  base : Disassembler.Legible m.base
  index : Disassembler.Legible m.index
  segment : Disassembler.Legible m.segment

/-! ## Operands -/

/-- A register has a legible name, a number fits its field unless `C` holds, and a place in memory has
legible names and is of a kind. -/
def Operand.Meets (C : Prop) (M : MemoryOperand → Prop) : Operand → Prop
  | register r => r.Named
  | immediate i => i.FitsUnless C
  | memory m => M m ∧ m.Legible
  | relative _ => True

/-- A place that counts from a register, so that nobody knows where it is. -/
def MemoryOperand.Based (m : MemoryOperand) : Prop := m.base.isSome ∧ m.pcTarget = none

/-- What is encoded, if anything is, shows only such operands. -/
def Meets (C : Prop) (M : MemoryOperand → Prop) (x : Option Operation) : Prop :=
  ∀ op ∈ x, ∀ o ∈ op.operands, o.Meets C M

section

variable {C : Prop} {M : MemoryOperand → Prop} {p : Prop} [Decidable p]

@[simp] theorem Operand.meets_register (r : RegisterOperand) : (register r).Meets C M ↔
    r.name.isSome ∧ Legible r.name ∧ ∀ s ∈ r.shift, Legible s.register :=
  ⟨fun ⟨hsome, hlegible, hshift⟩ => ⟨hsome, hlegible, hshift⟩,
    fun ⟨hsome, hlegible, hshift⟩ => ⟨hsome, hlegible, hshift⟩⟩

@[simp] theorem Operand.meets_reg (name : Option String) :
    (reg name).Meets C M ↔ name.isSome ∧ Legible name := by
  simp [reg]

@[simp] theorem Operand.meets_named (name : String) : (named name).Meets C M ↔ name ≠ "?" := by
  simp [named]

@[simp] theorem Operand.meets_immediate (i : ImmediateOperand) :
    (immediate i).Meets C M ↔ i.FitsUnless C := Iff.rfl

@[simp] theorem Operand.meets_decimalImm {v : Nat} {width : UInt8} (h : v < 2 ^ width.toNat) :
    (decimalImm v width).Meets C M := .inl (ImmediateOperand.fits_of_lt rfl rfl h)

/-- A count of bits that may be all of them. -/
theorem Operand.meets_decimalImm_of {v : Nat} {width : UInt8} (hle : v ≤ 2 ^ width.toNat)
    (h : v = 2 ^ width.toNat → C) : (decimalImm v width).Meets C M := by
  rcases Nat.lt_or_eq_of_le hle with hlt | heq
  · exact meets_decimalImm hlt
  · exact .inr ⟨h heq, rfl, congrArg Nat.cast heq⟩

@[simp] theorem Operand.meets_hexImm {v : Nat} {width : UInt8} (h : v < 2 ^ width.toNat) :
    (hexImm v width).Meets C M := .inl (ImmediateOperand.fits_of_lt rfl rfl h)

@[simp] theorem Operand.meets_signedImm {n v : Nat} {width : UInt8} (hn : n ≠ 0)
    (hwidth : width.toNat = n) : (signedImm (signExtend n v) width).Meets C M :=
  .inl (ImmediateOperand.fits_of_signExtend rfl hn hwidth rfl)

@[simp] theorem Operand.meets_memory (m : MemoryOperand) : (memory m).Meets C M ↔
    M m ∧ Legible m.base ∧ Legible m.index ∧ Legible m.segment :=
  ⟨fun ⟨hm, hbase, hindex, hsegment⟩ => ⟨hm, hbase, hindex, hsegment⟩,
    fun ⟨hm, hbase, hindex, hsegment⟩ => ⟨hm, hbase, hindex, hsegment⟩⟩

@[simp] theorem Operand.meets_relative (t : UInt64) : (relative t).Meets C M := trivial

@[simp] theorem Operand.meets_ite {o o' : Operand} :
    (if p then o else o').Meets C M ↔ (p → o.Meets C M) ∧ (¬p → o'.Meets C M) := by
  split <;> simp [*]

@[simp] theorem Operand.forall_meets_ite {os os' : List Operand} :
    (∀ o ∈ if p then os else os', o.Meets C M)
      ↔ (p → ∀ o ∈ os, o.Meets C M) ∧ (¬p → ∀ o ∈ os', o.Meets C M) := by
  split <;> simp [*]

@[simp] theorem meets_none : Meets C M none := fun _ h => absurd h (by simp)

@[simp] theorem meets_some {op : Operation} :
    Meets C M (some op) ↔ ∀ o ∈ op.operands, o.Meets C M := by
  simp [Meets]

@[simp] theorem meets_ite {x y : Option Operation} :
    Meets C M (if p then x else y) ↔ (p → Meets C M x) ∧ (¬p → Meets C M y) := by
  split <;> simp [*]

@[simp] theorem meets_bind {α : Type} {x : Option α} {f : α → Option Operation} :
    Meets C M (x.bind f) ↔ ∀ a ∈ x, Meets C M (f a) := by
  cases x <;> simp

@[simp] theorem meets_map {α : Type} {x : Option α} {f : α → Operation} :
    Meets C M (x.map f) ↔ ∀ a ∈ x, ∀ o ∈ (f a).operands, o.Meets C M := by
  cases x <;> simp

theorem Meets.or {x y : Option Operation} (hx : Meets C M x) (hy : Meets C M y) :
    Meets C M (x.or y) := by
  cases x with
  | none => exact hy
  | some op => exact hx

@[simp] theorem operands_withTarget (m : String) (os : List Operand) (kind : UInt64 → Flow)
    (t : UInt64) : (Operation.withTarget m os kind t).operands = os ++ [.relative t] := rfl

@[simp] theorem Operation.operands_ite {op op' : Operation} :
    (if p then op else op').operands = if p then op.operands else op'.operands := by
  split <;> rfl

/-- A field is below every number that its bits do not reach. -/
@[simp] theorem bits_lt_of_le {w : UInt32} {hi lo k : Nat} (h : 2 ^ (hi + 1 - lo) ≤ k) :
    bits w hi lo < k := by
  have hlt := bits_lt w hi lo
  rw [Nat.one_shiftLeft] at hlt
  exact Nat.lt_of_lt_of_le hlt h

end

/-! ## Machines with words -/

namespace Instruction

variable {i : Instruction} {o : Operand}

theorem exists_of_mem_operands (h : o ∈ i.operands) : ∃ op ∈ i.operation, o ∈ op.operands := by
  unfold operands at h
  split at h
  · rename_i op hop
    exact ⟨op, hop, h⟩
  · exact absurd h List.not_mem_nil

theorem mem_operands_of_mem {op : Operation} (hop : op ∈ i.operation) (h : o ∈ op.operands) :
    o ∈ i.operands := by
  rwa [operands, Option.mem_def.mp hop]

end Instruction

theorem operation_decodeWord_eq_bind (order : ByteOrder)
    (operation : UInt32 → UInt64 → Option Operation) (data : List UInt8) (a : UInt64) :
    (decodeWord order operation data a).operation = (order.word? data).bind (operation · a) := by
  unfold decodeWord
  split
  · rename_i hword
    rw [hword]
    rfl
  · rename_i hword
    rw [hword]
    rfl

theorem address_decodeWord (order : ByteOrder) (operation : UInt32 → UInt64 → Option Operation)
    (data : List UInt8) (a : UInt64) : (decodeWord order operation data a).address = a := by
  unfold decodeWord
  split <;> rfl

/-- What is shown of a word is shown of some bytes that begin with it. -/
theorem exists_meets_decodeWord {C : UInt32 → Prop} {M : UInt32 → MemoryOperand → Prop}
    {operation : UInt32 → UInt64 → Option Operation} {a : UInt64}
    (h : ∀ w, Meets (C w) (M w) (operation w a)) {order : ByteOrder} {data : List UInt8}
    {o : Operand} (ho : o ∈ (decodeWord order operation data a).operands) :
    ∃ w, order.word? data = some w ∧ o.Meets (C w) (M w) := by
  obtain ⟨op, hop, ho⟩ := Instruction.exists_of_mem_operands ho
  rw [operation_decodeWord_eq_bind] at hop
  obtain ⟨w, hw, hop⟩ := Option.bind_eq_some_iff.mp hop
  exact ⟨w, hw, h w op hop o ho⟩

end Disassembler
