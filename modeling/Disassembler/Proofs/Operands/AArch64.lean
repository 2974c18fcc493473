import Disassembler.Proofs.Operands.Basic
import Disassembler.Proofs.Rebase.Absolute

/-!
# What encodings of AArch64 show

All registers have names, and all places in memory have a base but those of literals, which count
from the instruction. All numbers fit their fields but one. It is the size of the bit field that
`bfxil` moves, which may be a whole register of 64 bits and is said to have six.
-/

namespace Disassembler.AArch64

variable {C : Prop} {M : MemoryOperand → Prop} {w : UInt32} {a : UInt64}

/-! ## Fields and operands -/

@[simp] theorem rd_lt : rd w < 32 := bits_lt w 4 0

@[simp] theorem rn_lt : rn w < 32 := bits_lt w 9 5

@[simp] theorem ra_lt : ra w < 32 := bits_lt w 14 10

@[simp] theorem rm_lt : rm w < 32 := bits_lt w 20 16

theorem isSome_generalName (wide : Bool) {r : Nat} (h : r < 32) : (generalName wide r).isSome := by
  unfold generalName
  split
  · simp [wideNames, h]
  · simp [narrowNames, h]

@[simp] theorem legible_generalName (wide : Bool) (r : Nat) : Legible (generalName wide r) := by
  unfold generalName
  split
  · exact legible_getElem? (by decide +kernel) r
  · exact legible_getElem? (by decide +kernel) r

theorem isSome_stackName (wide : Bool) {r : Nat} (h : r < 32) : (stackName wide r).isSome := by
  unfold stackName
  split
  · rfl
  · exact isSome_generalName wide h

@[simp] theorem legible_stackName (wide : Bool) (r : Nat) : Legible (stackName wide r) := by
  unfold stackName
  split
  · cases wide <;> simp
  · exact legible_generalName wide r

@[simp] theorem meets_greg (wide : Bool) {r : Nat} (h : r < 32) : (greg wide r).Meets C M := by
  simp [greg, isSome_generalName wide h]

@[simp] theorem meets_sreg (wide : Bool) {r : Nat} (h : r < 32) : (sreg wide r).Meets C M := by
  simp [sreg, isSome_stackName wide h]

/-- The name of a view is a letter and a number. -/
@[simp] theorem meets_vreg {kind r : Nat} (hkind : kind < 5) (h : r < 32) :
    (vreg kind r).Meets C M := by
  have hletters : ∀ l ∈ vectorLetters, 0 < l.length := by decide +kernel
  have hnumbers : ∀ n ∈ vectorNumbers, 0 < n.length := by decide +kernel
  obtain ⟨letter, hletter⟩ : ∃ l, vectorLetters[kind]? = some l :=
    ⟨_, Array.getElem?_eq_getElem hkind⟩
  obtain ⟨number, hnumber⟩ : ∃ n, vectorNumbers[r]? = some n := ⟨_, Array.getElem?_eq_getElem h⟩
  have hfirst : 0 < letter.length := hletters letter (Array.mem_of_getElem? hletter)
  have hrest : 0 < number.length := hnumbers number (Array.mem_of_getElem? hnumber)
  rw [vreg, hletter, hnumber]
  exact (Operand.meets_reg _).mpr ⟨rfl, legible_some.mpr (append_ne_mark (by omega))⟩

@[simp] theorem meets_conditionOperand {c : Nat} (h : c < 16) : (conditionOperand c).Meets C M := by
  have hlegible : Legible conditionNames[c]? := legible_getElem? (by decide +kernel) c
  simp [conditionOperand, hlegible, show conditionNames[c]?.isSome by simp [conditionNames, h]]

@[simp] theorem opposite_lt {c : Nat} (h : c < 16) : opposite c < 16 := by
  unfold opposite
  split <;> omega

@[simp] theorem meets_small {v : Nat} (h : v < 64) : (small v).Meets C M := by
  simp [small, h]

@[simp] theorem meets_shiftedImm {v : Nat} {width : UInt8} (h : v < 2 ^ width.toNat)
    (amount : Nat) : (shiftedImm v width amount).Meets C M :=
  .inl (ImmediateOperand.fits_of_lt rfl rfl h)

/-- A shift that may be left out is by an amount that is in no register. -/
theorem legible_shift {op : String} {amount : UInt8} {p : Prop} [Decidable p] :
    ∀ s ∈ (if p then none else some ({ op, amount } : Shift)), Legible s.register := by
  intro s hs
  split at hs
  · cases hs
  · obtain rfl := Option.some.inj hs
    exact legible_none

@[simp] theorem meets_shiftedReg (wide : Bool) {r : Nat} (h : r < 32) (kind amount : Nat) :
    (shiftedReg wide r kind amount).Meets C M :=
  (Operand.meets_register _).mpr
    ⟨isSome_generalName wide h, legible_generalName wide r, legible_shift⟩

@[simp] theorem meets_systemOperand : (systemOperand w).Meets C M := by
  have hlegible : ∀ q ∈ systemNames, q.2 ≠ "?" := by decide +kernel
  unfold systemOperand
  split
  · rename_i n hn
    obtain ⟨front, back, heq, -⟩ := List.lookup_eq_some_iff.mp hn
    exact (Operand.meets_named _).mpr (hlegible (bits w 20 5, n) (heq ▸ by simp))
  · exact Operand.meets_hexImm (bits_lt w 20 5)

@[simp] theorem meets_plain {m : String} {os : List Operand} :
    Meets C M (plain m os) ↔ ∀ o ∈ os, o.Meets C M := meets_some

/-- The word loads a literal. -/
def LoadsLiteral (w : UInt32) : Prop := bits w 29 27 = 3 ∧ bits w 25 24 = 0

/-- A place that counts from a register, or that of a literal, which counts from the instruction. -/
def Placed (w : UInt32) (a : UInt64) (m : MemoryOperand) : Prop :=
  m.Based ∨ LoadsLiteral w ∧ m.base = none ∧ m.index = none
    ∧ m.pcTarget = some (moveBy a (4 * signExtend 19 (bits w 23 5)))

/-! ## Control and system instructions -/

theorem meets_exception : Meets C M (exception w) := by
  unfold exception
  split <;> simp

theorem testedBit_lt : testedBit w < 64 := by
  have hhigh : bits w 31 31 < 2 := bits_lt w 31 31
  have hlow : bits w 23 19 < 32 := bits_lt w 23 19
  rw [testedBit, Nat.shiftLeft_eq]
  omega

theorem meets_branch : Meets C M (branch w a) := by
  simp [branch, testedBit_lt, meets_exception]

theorem meets_hint : Meets C M (hint w) := by
  unfold hint
  split <;> simp

theorem meets_barrier : Meets C M (barrier w) := by
  unfold barrier
  split <;> simp

/-- The operation of a cache is in the table. -/
theorem ne_mark_of_cacheOps {v : Nat} {m op : String} (h : cacheOps.lookup v = some (m, op)) :
    op ≠ "?" := by
  have hlegible : ∀ q ∈ cacheOps, q.2.2 ≠ "?" := by decide +kernel
  obtain ⟨front, back, heq, -⟩ := List.lookup_eq_some_iff.mp h
  exact hlegible (v, m, op) (heq ▸ by simp)

theorem meets_system : Meets C M (system w) := by
  have hcache : ∀ m op, cacheOps.lookup (bits w 18 5) = some (m, op) → op ≠ "?" := fun _ _ =>
    ne_mark_of_cacheOps
  simpa [system, meets_hint, meets_barrier] using fun _ _ _ _ _ => hcache

/-! ## Data processing -/

theorem meets_pcAddress : Meets C M (pcAddress w a) := by
  simp [pcAddress]

theorem meets_addSubImm : Meets C M (addSubImm w) := by
  simp [addSubImm]

theorem toNat_fieldWidth : (fieldWidth w).toNat = if sf w then 64 else 32 := by
  unfold fieldWidth
  split <;> rfl

theorem lt_of_bitmask {n : Bool} {imms immr v : Nat} {wide : Bool}
    (h : bitmask n imms immr wide = some v) : v < 2 ^ (if wide then 64 else 32) := by
  unfold bitmask at h
  extract_lets marks at h
  split at h
  · cases h
  · split at h
    · cases h
    · obtain rfl := Option.some.inj h
      rw [Nat.one_shiftLeft (if wide then 64 else 32)]
      exact Nat.mod_lt _ (Nat.two_pow_pos _)

theorem meets_logicalImm : Meets C M (logicalImm w) := by
  simp only [logicalImm, Option.bind_eq_bind, meets_bind]
  intro v hv
  have hvalue : (Operand.hexImm v (fieldWidth w)).Meets C M := by
    refine Operand.meets_hexImm ?_
    rw [toNat_fieldWidth]
    exact lt_of_bitmask hv
  simp [hvalue]

/-- A quarter of a register that lies in it. -/
theorem shifted_lt (h : ¬(!sf w ∧ 32 ≤ 16 * bits w 22 21)) :
    bits w 20 5 <<< (16 * bits w 22 21) < 2 ^ (if sf w then 64 else 32) := by
  have hpart : bits w 20 5 < 2 ^ 16 := bits_lt w 20 5
  have hquarter : bits w 22 21 < 4 := bits_lt w 22 21
  have hend : 16 + 16 * bits w 22 21 ≤ if sf w then 64 else 32 := by
    split
    · omega
    · have hlow : ¬ 32 ≤ 16 * bits w 22 21 := fun hle => h ⟨by simp [*], hle⟩
      omega
  rw [Nat.shiftLeft_eq]
  calc bits w 20 5 * 2 ^ (16 * bits w 22 21)
      < 2 ^ 16 * 2 ^ (16 * bits w 22 21) :=
        Nat.mul_lt_mul_of_pos_right hpart (Nat.two_pow_pos _)
    _ = 2 ^ (16 + 16 * bits w 22 21) := (Nat.pow_add 2 16 _).symm
    _ ≤ 2 ^ (if sf w then 64 else 32) := Nat.pow_le_pow_right (by decide) hend

theorem meets_moveWide : Meets C M (moveWide w) := by
  have hpart : bits w 20 5 < 2 ^ 16 := bits_lt w 20 5
  unfold moveWide
  dsimp only
  rw [meets_ite]
  refine ⟨fun _ => meets_none, fun hquarter => ?_⟩
  have hshifted : (Operand.hexImm (bits w 20 5 <<< (16 * bits w 22 21) : Nat) (fieldWidth w)).Meets
      C M := by
    refine Operand.meets_hexImm ?_
    rw [toNat_fieldWidth]
    exact shifted_lt hquarter
  split
  · rw [meets_ite]
    refine ⟨fun _ => by simp, fun _ => ?_⟩
    have hsize : (if sf w then 64 else 32) ≠ 0 := by split <;> decide
    rw [meets_plain, List.forall_mem_cons, List.forall_mem_singleton]
    exact ⟨meets_greg _ rd_lt,
      .inl (ImmediateOperand.fits_of_signExtend rfl hsize toNat_fieldWidth rfl)⟩
  · rw [meets_plain, List.forall_mem_cons, List.forall_mem_singleton]
    exact ⟨meets_greg _ rd_lt, hshifted⟩
  · simp
  · simp

/-- The word moves a bit field that is a whole register of 64 bits. -/
def CountsAll (w : UInt32) : Prop :=
  bits w 30 23 = 0x66 ∧ sf w ∧ bit w 22 ∧ bits w 21 16 = 0 ∧ bits w 15 10 = 63

instance (w : UInt32) : Decidable (CountsAll w) := inferInstanceAs (Decidable (_ ∧ _))

/-- A field that goes to the high end is not a whole register. -/
theorem meets_toHigh {size r s : Nat} (hsize : size ≤ 64) (hr : r < size) (hlt : s < r)
    (m : String) : Meets C M
      (plain m [greg (sf w) (rd w), greg (sf w) (rn w), small (size - r), small (s + 1)]) := by
  have hstart : (small (size - r)).Meets C M := meets_small (by omega)
  have hlength : (small (s + 1)).Meets C M := meets_small (by omega)
  simp [hstart, hlength]

/-- A field that goes to the low end may be a whole register. -/
theorem meets_toLow {r s : Nat} (hr : r < 64) (hs : s < 64) (hwhole : r = 0 → s = 63 → C)
    (m : String) : Meets C M
      (plain m [greg (sf w) (rd w), greg (sf w) (rn w), small r, small (s - r + 1)]) := by
  have hlength : (small (s - r + 1)).Meets C M :=
    Operand.meets_decimalImm_of (show s - r + 1 ≤ 64 by omega)
      fun (h : s - r + 1 = 64) => hwhole (by omega) (by omega)
  simp [hr, hlength]

theorem meets_bitField (hclass : bits w 28 23 = 0x26) : Meets (CountsAll w) M (bitField w) := by
  unfold bitField
  dsimp only
  rw [meets_ite]
  refine ⟨fun _ => meets_none, fun hfields => ?_⟩
  obtain ⟨hn, hrs⟩ := not_or.mp hfields
  obtain ⟨hr, hs⟩ := not_or.mp hrs
  have hwhole : bits w 30 29 = 1 → bits w 21 16 = 0 → bits w 15 10 = 63 → CountsAll w := by
    intro hkind hzero hlast
    have hopcode : bits w 30 23 = 0x66 := by
      simp only [bits_eq] at hclass hkind ⊢
      omega
    have hwide : sf w = true := by
      by_contra hnarrow
      rw [hlast, if_neg hnarrow] at hs
      omega
    exact ⟨hopcode, hwide, (not_not.mp hn).trans hwide, hzero, hlast⟩
  generalize hsize : (if sf w then 64 else 32) = size at hr hs ⊢
  have hle : size ≤ 64 := by
    rw [← hsize]
    split <;> omega
  generalize bits w 21 16 = r at *
  generalize bits w 15 10 = s at *
  have hr : r < size := Nat.lt_of_not_le hr
  have hs : s < size := Nat.lt_of_not_le hs
  have hr64 : r < 64 := Nat.lt_of_lt_of_le hr hle
  have hs64 : s < 64 := Nat.lt_of_lt_of_le hs hle
  -- what is no alias of a shift or an extension goes to the high or to the low end
  have hmoved : ∀ (C : Prop) (toHigh toLow : String), (r = 0 → s = 63 → C) → Meets C M
      (if s < r then
        plain toHigh [greg (sf w) (rd w), greg (sf w) (rn w), small (size - r), small (s + 1)]
      else
        plain toLow [greg (sf w) (rd w), greg (sf w) (rn w), small r, small (s - r + 1)]) := by
    intro C toHigh toLow hall
    rw [meets_ite]
    exact ⟨fun hlt => meets_toHigh hle hr hlt toHigh, fun _ => meets_toLow hr64 hs64 hall toLow⟩
  split
  · simp only [meets_ite (p := s = size - 1), meets_ite (p := r = 0 ∧ _)]
    refine ⟨fun _ => by simp [hr64], fun hlast => ⟨fun _ => by simp, fun _ => ⟨fun _ => by simp,
      fun _ => ⟨fun _ => by simp, fun _ => hmoved _ _ _ fun _ _ => ?_⟩⟩⟩⟩
    omega
  · exact hmoved _ _ _ (hwhole ‹_›)
  · have hleft : (small (size - 1 - s)).Meets (CountsAll w) M := meets_small (by omega)
    simp only [meets_ite (p := s = size - 1), meets_ite (p := s + 1 = r), meets_ite (p := r = 0 ∧ _)]
    refine ⟨fun _ => by simp [hr64], fun hlast => ⟨fun _ => by simp [hleft], fun _ =>
      ⟨fun _ => by simp, fun _ => ⟨fun _ => by simp, fun _ => hmoved _ _ _ fun _ _ => ?_⟩⟩⟩⟩
    omega
  · simp

theorem meets_extract : Meets C M (extract w) := by
  simp [extract]

theorem meets_logicalReg : Meets C M (logicalReg w) := by
  simp [logicalReg]

theorem meets_addSubShifted : Meets C M (addSubShifted w) := by
  simp [addSubShifted]

theorem meets_addSubExtended : Meets C M (addSubExtended w) := by
  unfold addSubExtended
  extract_lets option amount plainShift shift src dest
  have hshift : ∀ s ∈ shift, Legible s.register := by
    intro s hs
    unfold shift at hs
    split at hs
    · exact legible_shift s hs
    · obtain rfl := Option.some.inj hs
      exact legible_none
  have hsrc : src.Meets C M := (Operand.meets_register _).mpr
    ⟨isSome_generalName _ rm_lt, legible_generalName _ _, hshift⟩
  simp [hsrc, dest]

theorem meets_conditionalCompare : Meets C M (conditionalCompare w) := by
  simp [conditionalCompare]

theorem meets_conditionalSelect : Meets C M (conditionalSelect w) := by
  have hinverse : (conditionOperand (opposite (bits w 15 12))).Meets C M :=
    meets_conditionOperand (opposite_lt (bits_lt w 15 12))
  simp [conditionalSelect, hinverse]

theorem meets_multiply : Meets C M (multiply w) := by
  unfold multiply
  split <;> split <;> simp

theorem meets_dataRegister : Meets C M (dataRegister w) := by
  unfold dataRegister
  split
  · exact meets_logicalReg
  · simp [meets_addSubExtended, meets_addSubShifted]
  · split <;> simp [meets_conditionalCompare, meets_conditionalSelect]
  · exact meets_multiply
  · exact meets_none

theorem meets_dataImmediate : Meets (CountsAll w) M (dataImmediate w a) := by
  unfold dataImmediate
  split
  · exact meets_pcAddress
  · exact meets_pcAddress
  · exact meets_addSubImm
  · exact meets_logicalImm
  · exact meets_moveWide
  · exact meets_bitField ‹_›
  · exact meets_extract
  · exact meets_none

/-! ## Loads and stores -/

@[simp] theorem base_based : (based w).base.isSome := isSome_stackName true rn_lt

@[simp] theorem legible_base_based : Legible (based w).base := legible_stackName true (rn w)

@[simp] theorem index_based : (based w).index = none := rfl

@[simp] theorem segment_based : (based w).segment = none := rfl

theorem meets_literal (h : LoadsLiteral w) : Meets C (Placed w a) (literal w a) := by
  unfold literal
  split <;> simp [Placed, h]

theorem meets_pair : Meets C (Placed w a) (pair w) := by
  unfold pair
  split <;> simp [Placed, MemoryOperand.Based]

theorem meets_ordered : Meets C (Placed w a) (ordered w) := by
  simp only [ordered, Option.bind_eq_bind, meets_bind]
  intro ending _
  split <;> simp [Placed, MemoryOperand.Based]

theorem meets_operand_of_transfer {t : Transfer} (h : t ∈ transfer w) : t.operand.Meets C M := by
  have hvector : ∀ t ∈ vectorTransfer w, t.operand.Meets C M := by
    simp only [vectorTransfer]
    split
    · split <;> simp
    · simp
  have hgeneral : ∀ t ∈ generalTransfer w, t.operand.Meets C M := by
    simp only [generalTransfer]
    split <;> simp
  unfold transfer at h
  split at h
  · exact hvector t h
  · exact hgeneral t h

theorem meets_unsignedOffset : Meets C (Placed w a) (unsignedOffset w) := by
  have htransferred : ∀ t, transfer w = some t → t.operand.Meets C (Placed w a) := fun _ ht =>
    meets_operand_of_transfer ht
  simpa [unsignedOffset, Placed, MemoryOperand.Based] using htransferred

theorem meets_registerOffset : Meets C (Placed w a) (registerOffset w) := by
  have htransferred : ∀ t, transfer w = some t → t.operand.Meets C (Placed w a) := fun _ ht =>
    meets_operand_of_transfer ht
  simpa [registerOffset, Placed, MemoryOperand.Based] using fun t ht _ => htransferred t ht

theorem meets_signedOffset : Meets C (Placed w a) (signedOffset w) := by
  simp only [signedOffset, Option.bind_eq_bind, meets_bind]
  intro t ht
  have htransferred : t.operand.Meets C (Placed w a) := meets_operand_of_transfer ht
  split <;> simp [htransferred, Placed, MemoryOperand.Based]

theorem meets_loadStore : Meets C (Placed w a) (loadStore w a) := by
  unfold loadStore
  split
  · exact meets_literal ⟨‹_›, ‹_›⟩
  · exact meets_pair
  · exact meets_pair
  · simp [meets_ordered]
  · exact meets_unsignedOffset
  · simp [meets_signedOffset, meets_registerOffset]
  · exact meets_none

/-! ## The decoder -/

/-- **What a word shows.** -/
theorem meets_decode : Meets (CountsAll w) (Placed w a) (decode w a) := by
  unfold decode
  split
  · exact meets_dataImmediate
  · exact meets_dataImmediate
  · simp [meets_system, meets_branch]
  · simp [meets_system, meets_branch]
  · exact meets_loadStore
  · exact meets_loadStore
  · exact meets_loadStore
  · exact meets_loadStore
  · exact meets_dataRegister
  · exact meets_dataRegister
  · exact meets_none

/-- A word that moves such a field shows a number that does not fit. -/
theorem exists_exceeds (h : CountsAll w) (a : UInt64) :
    ∃ op ∈ decode w a, ∃ i, .immediate i ∈ op.operands ∧ i.Exceeds ∧ i.width = 6 := by
  obtain ⟨hopcode, hwide, hn, hzero, hlast⟩ := h
  obtain ⟨hfamily, hclass, hkind⟩ :
      bits w 28 25 = 9 ∧ bits w 28 23 = 0x26 ∧ bits w 30 29 = 1 := by
    simp only [bits_eq] at hopcode ⊢
    omega
  have hdecode : decode w a = bitField w := by
    simp [decode, hfamily, dataImmediate, hclass]
  have hmove : bitField w
      = plain "bfxil" [greg true (rd w), greg true (rn w), small 0, small 64] := by
    simp [bitField, hwide, hn, hkind, hzero, hlast]
  refine ⟨_, hdecode.trans hmove, { value := 64, width := 6 }, ?_, ⟨rfl, rfl⟩, rfl⟩
  exact List.mem_of_mem_getLast? rfl

end Disassembler.AArch64
