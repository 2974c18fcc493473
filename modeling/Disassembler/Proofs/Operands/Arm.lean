import Disassembler.Proofs.Operands.Basic

/-!
# What encodings of ARM show

All registers have names, and all places in memory have a base; where one is known, the base is the
program counter. All numbers fit their fields but one. A right shift by 32 is encoded as one by zero,
and the move of a register shifted so shows the 32, which is said to have five bits.
-/

namespace Disassembler

/-- A rotation does not leave the bits that are rotated. -/
theorem rotated_lt {n b turn : Nat} (hb : b < 2 ^ n) (hturn : turn ≤ n) :
    b >>> turn + b <<< (n - turn) % 2 ^ n < 2 ^ n := by
  have hsplit : 2 ^ n = 2 ^ turn * 2 ^ (n - turn) := by
    rw [← Nat.pow_add, Nat.add_sub_cancel' hturn]
  have hlow : b / 2 ^ turn < 2 ^ (n - turn) := by
    rw [Nat.div_lt_iff_lt_mul (Nat.two_pow_pos turn), Nat.mul_comm, ← hsplit]
    exact hb
  have hhigh : b % 2 ^ turn < 2 ^ turn := Nat.mod_lt b (Nat.two_pow_pos turn)
  -- what leaves at the low end comes in above what stays
  rw [Nat.shiftRight_eq_div_pow, Nat.shiftLeft_eq, hsplit, Nat.mul_mod_mul_right]
  calc b / 2 ^ turn + b % 2 ^ turn * 2 ^ (n - turn)
      < 2 ^ (n - turn) + b % 2 ^ turn * 2 ^ (n - turn) := Nat.add_lt_add_right hlow _
    _ = (b % 2 ^ turn + 1) * 2 ^ (n - turn) := by rw [Nat.succ_mul, Nat.add_comm]
    _ ≤ 2 ^ turn * 2 ^ (n - turn) := Nat.mul_le_mul_right _ hhigh

namespace Arm

variable {C : Prop} {M : MemoryOperand → Prop} {w : UInt32} {a : UInt64}

/-! ## Fields and operands -/

@[simp] theorem rn_lt : rn w < 16 := bits_lt w 19 16

@[simp] theorem rd_lt : rd w < 16 := bits_lt w 15 12

@[simp] theorem rs_lt : rs w < 16 := bits_lt w 11 8

@[simp] theorem rm_lt : rm w < 16 := bits_lt w 3 0

@[simp] theorem isSome_registerName {r : Nat} (h : r < 16) : registerNames[r]?.isSome := by
  simp [registerNames, h]

@[simp] theorem legible_registerName (r : Nat) : Legible registerNames[r]? :=
  legible_getElem? (by decide +kernel) r

@[simp] theorem meets_reg {r : Nat} (h : r < 16) : (reg r).Meets C M := by
  simp [reg, h]

@[simp] theorem meets_onlyRegister {r : Nat} (h : r < 16) : (onlyRegister r).Meets C M := by
  simp [onlyRegister, h]

@[simp] theorem meets_plain {m : String} {os : List Operand} :
    Meets C M (plain m w os) ↔ ∀ o ∈ os, o.Meets C M := meets_some

/-- A place with a base, which is the program counter if it is known where the place is. There are no
segments. -/
def Counted (a : UInt64) (m : MemoryOperand) : Prop :=
  m.base.isSome ∧ m.segment = none ∧ ∀ t ∈ m.pcTarget, m.base = registerNames[pc]? ∧ m.index = none
    ∧ m.mode = .offset ∧ t = relativeTarget a m.displacement

@[simp] theorem meets_exclusive : (exclusive w).Meets C (Counted a) := by
  simp [exclusive, Counted]

@[simp] theorem meets_indexed (shift : Option Shift) (size : UInt8) :
    (indexed w shift size).Meets C (Counted a) := by
  simp [indexed, Counted]

@[simp] theorem meets_displaced (offset : Nat) (width size : UInt8) :
    (displaced w a offset width size).Meets C (Counted a) := by
  refine (Operand.meets_memory _).mpr
    ⟨⟨isSome_registerName rn_lt, rfl, fun t ht => ?_⟩, by simp⟩
  dsimp only at ht
  split at ht
  · rename_i hpc
    obtain rfl := Option.some.inj ht
    exact ⟨congrArg (registerNames[·]?) hpc.1, rfl, hpc.2, rfl⟩
  · cases ht

theorem rotatedImmediate_lt : rotatedImmediate w < 2 ^ 32 := by
  have hbyte : bits w 7 0 < 2 ^ 8 := bits_lt w 7 0
  have hturn : bits w 11 8 < 16 := bits_lt w 11 8
  exact rotated_lt (n := 32) (by omega) (by omega)

theorem splitImmediate_lt : splitImmediate w < 2 ^ 16 := by
  have hhigh : bits w 19 8 < 2 ^ 12 := bits_lt w 19 8
  have hlow : bits w 3 0 < 2 ^ 4 := bits_lt w 3 0
  rw [splitImmediate, Nat.shiftLeft_eq]
  omega

@[simp] theorem meets_splitImmediate : (Operand.hexImm (splitImmediate w) 16).Meets C M :=
  Operand.meets_hexImm splitImmediate_lt

/-! ## The families -/

theorem meets_unconditional : Meets C (Counted a) (unconditional w a) := by
  unfold unconditional
  rw [meets_ite]
  refine ⟨fun _ => by simp, fun _ => ?_⟩
  rw [meets_ite]
  refine ⟨fun _ => by simp [Counted], fun _ => ?_⟩
  rw [meets_ite]
  refine ⟨fun _ => by simp, fun _ => ?_⟩
  split <;> simp

theorem meets_miscellaneous : Meets C (Counted a) (miscellaneous w) := by
  have hread : (if bit w 22 then "spsr" else "apsr") ≠ "?" := by split <;> decide
  have hwritten : ∀ fields, (if bit w 22 then "spsr" else "cpsr") ++ fields ≠ "?" := by
    intro fields
    split <;> exact append_ne_mark (Nat.lt_add_right _ (by decide))
  simp [miscellaneous, statusFields, hread, hwritten]

theorem meets_multiply : Meets C M (multiply w) := by
  simp [multiply]

theorem meets_extraLoadStore : Meets C (Counted a) (extraLoadStore w a) := by
  simp only [extraLoadStore, Option.bind_eq_bind, meets_bind]
  intro t _
  have hplace : (if bit w 22 then displaced w a (bits w 11 8 <<< 4 + bits w 3 0) 8 t.size
      else indexed w none t.size).Meets C (Counted a) := by simp
  have hd : rd w < 16 := rd_lt
  simp only [meets_ite, meets_none, meets_some, List.forall_mem_cons]
  have hnil : ∀ o ∈ ([] : List Operand), o.Meets C (Counted a) := fun _ ho =>
    absurd ho List.not_mem_nil
  refine ⟨fun _ => ⟨fun _ => trivial, fun hodd => ?_⟩, fun _ => ?_⟩
  · exact ⟨meets_reg hd, meets_reg (by omega), hplace, hnil⟩
  · exact ⟨meets_reg hd, hplace, hnil⟩

theorem meets_loadStore : Meets C (Counted a) (loadStore w a) := by
  simp [loadStore]

theorem meets_registerList : ∀ o ∈ registerList w, o.Meets C M := by
  intro o ho
  obtain ⟨r, hr, rfl⟩ := List.mem_map.mp ho
  have hlt : r < 16 := List.mem_range.mp (List.mem_filter.mp hr).1
  simp [hlt]

theorem meets_block : Meets C M (block w) := by
  have hlist : ∀ o ∈ registerList w, o.Meets C M := meets_registerList
  have hbase : ∀ writeback, (Operand.register { name := registerNames[rn w]?, writeback }).Meets C M :=
    fun _ => by simp
  unfold block
  simp only [meets_ite, meets_none, meets_some, meets_plain, meets_map, List.forall_mem_cons]
  exact ⟨fun _ => trivial, fun _ => ⟨fun _ => hlist, fun _ => ⟨fun _ => hlist,
    fun _ ending _ => ⟨hbase _, hlist⟩⟩⟩⟩

/-! ## Data processing -/

/-- The word moves a register that is shifted right by 32. -/
def CountsAll (w : UInt32) : Prop :=
  cond w ≠ 15 ∧ bits w 27 25 = 0 ∧ bits w 24 21 = 13 ∧ bit w 4 = false ∧ bits w 11 7 = 0
    ∧ (bits w 6 5 = 1 ∨ bits w 6 5 = 2)

instance (w : UInt32) : Decidable (CountsAll w) := inferInstanceAs (Decidable (_ ∧ _))

/-- An amount is below 32, but for the right shifts by zero. -/
theorem amount_of_fixedShift {s : Shift} (h : fixedShift w = some s) :
    s.amount.toNat ≤ 32
      ∧ (s.amount.toNat = 32 → bits w 11 7 = 0 ∧ (bits w 6 5 = 1 ∨ bits w 6 5 = 2)) := by
  have hamount : bits w 11 7 < 32 := bits_lt w 11 7
  have hkind : bits w 6 5 < 4 := bits_lt w 6 5
  unfold fixedShift at h
  dsimp only at h
  split at h
  · obtain rfl := Option.some.inj h
    have htoNat : (UInt8.ofNat (bits w 11 7)).toNat = bits w 11 7 :=
      UInt8.toNat_ofNat_of_lt' (show bits w 11 7 < 256 by omega)
    show (UInt8.ofNat (bits w 11 7)).toNat ≤ 32 ∧ ((UInt8.ofNat (bits w 11 7)).toNat = 32 → _)
    rw [htoNat]
    exact ⟨by omega, fun h => absurd h (by omega)⟩
  · rename_i hzero
    split at h
    · cases h
    · split at h
      · obtain rfl := Option.some.inj h
        exact ⟨Nat.zero_le 32, fun h => absurd h (Nat.ne_of_lt (Nat.zero_lt_succ 31))⟩
      · obtain rfl := Option.some.inj h
        exact ⟨Nat.le_refl 32, fun _ => ⟨by omega, by omega⟩⟩

/-- A register is shifted by at most 32, and by 32 only if it is shifted right by zero. -/
theorem amount_of_shiftedRegister {r : RegisterOperand} (h : r ∈ shiftedRegister w) {s : Shift}
    (hs : r.shift = some s) : s.amount.toNat ≤ 32 ∧ (s.amount.toNat = 32 →
      bit w 4 = false ∧ bits w 11 7 = 0 ∧ (bits w 6 5 = 1 ∨ bits w 6 5 = 2)) := by
  unfold shiftedRegister at h
  dsimp only at h
  split at h
  · split at h
    · cases h
    · -- the amount is in a register
      obtain rfl := Option.some.inj h
      obtain rfl := Option.some.inj hs
      exact ⟨Nat.zero_le 32, fun h => absurd h (Nat.ne_of_lt (Nat.zero_lt_succ 31))⟩
  · rename_i hbit
    obtain rfl := Option.some.inj h
    obtain ⟨hle, hright⟩ := amount_of_fixedShift hs
    exact ⟨hle, fun heq => ⟨Bool.eq_false_iff.mpr hbit, hright heq⟩⟩

/-- A register that is shifted has a legible name, and so has the one that holds the amount. -/
theorem named_of_shiftedRegister {r : RegisterOperand} (h : r ∈ shiftedRegister w) : r.Named := by
  have hname : registerNames[rm w]?.isSome := isSome_registerName rm_lt
  unfold shiftedRegister at h
  dsimp only at h
  split at h
  · split at h
    · cases h
    · obtain rfl := Option.some.inj h
      refine ⟨hname, legible_registerName _, fun s hs => ?_⟩
      obtain rfl := Option.some.inj hs
      exact legible_registerName _
  · obtain rfl := Option.some.inj h
    refine ⟨hname, legible_registerName _, fun s hs => ?_⟩
    -- an amount that is fixed is in no register
    have hs : fixedShift w = some s := hs
    have hnone : s.register = none := by
      unfold fixedShift at hs
      dsimp only at hs
      split at hs
      · obtain rfl := Option.some.inj hs
        rfl
      · split at hs
        · cases hs
        · split at hs
          · obtain rfl := Option.some.inj hs
            rfl
          · obtain rfl := Option.some.inj hs
            rfl
    rw [hnone]
    exact legible_none

theorem meets_of_mem_shiftMove {r : RegisterOperand} (h : r ∈ shiftedRegister w) {s : Shift}
    (hs : r.shift = some s) (hcond : cond w ≠ 15) (hclass : bits w 27 25 = 0)
    (hkind : bits w 24 21 = 13) : ∀ o ∈ (shiftMove w s).operands, o.Meets (CountsAll w) M := by
  obtain ⟨hle, hright⟩ := amount_of_shiftedRegister h hs
  have hamount : (Operand.decimalImm s.amount.toNat 5).Meets (CountsAll w) M :=
    Operand.meets_decimalImm_of hle fun heq => ⟨hcond, hclass, hkind, hright heq⟩
  have hregister : Legible s.register := (named_of_shiftedRegister h).shift s hs
  unfold shiftMove
  split
  · rename_i r' hr'
    rw [hr', legible_some] at hregister
    simp [hregister]
  · simp [hamount]

theorem meets_source {o : Operand} (h : o ∈ source w) : o.Meets C M := by
  unfold source at h
  split at h
  · obtain rfl := Option.some.inj h
    exact Operand.meets_hexImm rotatedImmediate_lt
  · obtain ⟨r, hr, rfl⟩ := Option.map_eq_some_iff.mp h
    exact named_of_shiftedRegister hr

/-- A register as the source is a shifted one, and is encoded in another class than a number. -/
theorem of_source_eq_register {r : RegisterOperand} (h : .register r ∈ source w) :
    r ∈ shiftedRegister w ∧ bits w 27 25 ≠ 1 := by
  unfold source at h
  split at h
  · exact Operand.noConfusion (Option.some.inj h)
  · rename_i hbit
    obtain ⟨r', hr, heq⟩ := Option.map_eq_some_iff.mp h
    obtain rfl := Operand.register.inj heq
    refine ⟨hr, fun hclass => hbit ?_⟩
    simp only [bit_eq_true_iff, bits_eq] at hclass ⊢
    omega

theorem meets_dataProcessing (hcond : cond w ≠ 15)
    (hclass : bits w 27 25 = 0 ∨ bits w 27 25 = 1) :
    Meets (CountsAll w) M (dataProcessing w) := by
  simp only [dataProcessing, Option.bind_eq_bind, meets_bind]
  intro stem _ src hsrc
  have hsource : src.Meets (CountsAll w) M := meets_source hsrc
  split
  · simp [hsource]
  split
  · rename_i hkind
    split
    · obtain ⟨hr, hregister⟩ := of_source_eq_register hsrc
      rw [meets_some]
      exact meets_of_mem_shiftMove hr rfl hcond (hclass.resolve_right hregister) hkind
    · simp [hsource]
  · split <;> simp [hsource]

theorem meets_registerForms (hcond : cond w ≠ 15) (hclass : bits w 27 25 = 0) :
    Meets (CountsAll w) (Counted a) (registerForms w a) := by
  unfold registerForms
  split
  · split
    · exact meets_multiply.or meets_miscellaneous
    · exact meets_extraLoadStore
  · split
    · exact meets_miscellaneous
    · exact meets_dataProcessing hcond (.inl hclass)

theorem meets_immediateForms (hcond : cond w ≠ 15) (hclass : bits w 27 25 = 1) :
    Meets (CountsAll w) M (immediateForms w) := by
  have hmove : bits w 19 16 <<< 12 + bits w 11 0 < 2 ^ 16 := by
    have hhigh : bits w 19 16 < 2 ^ 4 := bits_lt w 19 16
    have hlow : bits w 11 0 < 2 ^ 12 := bits_lt w 11 0
    rw [Nat.shiftLeft_eq]
    omega
  have hvalue : (Operand.hexImm (bits w 19 16 <<< 12 + bits w 11 0 : Nat) 16).Meets (CountsAll w) M :=
    Operand.meets_hexImm hmove
  unfold immediateForms
  rw [meets_ite]
  refine ⟨fun _ => ?_, fun _ => ?_⟩
  · rw [meets_plain]
    exact List.forall_mem_cons.mpr ⟨meets_reg rd_lt, List.forall_mem_singleton.mpr hvalue⟩
  · simp [meets_dataProcessing hcond (.inr hclass)]

/-- **What a word shows.** -/
theorem meets_decode : Meets (CountsAll w) (Counted a) (decode w a) := by
  unfold decode
  rw [meets_ite]
  refine ⟨fun _ => meets_unconditional, fun hcond => ?_⟩
  split
  · exact meets_registerForms hcond ‹_›
  · exact meets_immediateForms hcond ‹_›
  · exact meets_loadStore
  · split
    · simp
    · exact meets_loadStore
  · exact meets_block
  · simp [branch]
  · simp
  · simp

/-- A word that moves such a register shows a number that does not fit. -/
theorem exists_exceeds (h : CountsAll w) (a : UInt64) :
    ∃ op ∈ decode w a, ∃ i, .immediate i ∈ op.operands ∧ i.Exceeds ∧ i.width = 5 := by
  obtain ⟨hcond, hclass, hkind, hbit, hamount, hright⟩ := h
  have hdecode : decode w a = dataProcessing w := by
    have hmove : bits w 24 23 ≠ 2 := by
      simp only [bits_eq] at hkind ⊢
      omega
    simp [decode, hcond, hclass, registerForms, hbit, hmove]
  have hregister : bit w 25 = false := by
    simp only [bit_eq_false_iff, bits_eq] at hclass ⊢
    omega
  let s : Shift := { op := shiftNames[bits w 6 5]?.getD "", amount := 32 }
  have hshift : fixedShift w = some s := by
    have hnone : bits w 6 5 ≠ 0 ∧ bits w 6 5 ≠ 3 := by omega
    simp [fixedShift, hamount, hnone, s]
  have hsource : source w = some (.register { name := registerNames[rm w]?, shift := some s }) := by
    simp [source, shiftedRegister, hregister, hbit, hshift]
  have hmove : dataProcessing w
      = some { shiftMove w s with flow := if rd w = pc then .indirect else .next } := by
    simp [dataProcessing, hkind, dataNames, hsource]
  refine ⟨_, hdecode.trans hmove, { value := 32, width := 5 }, ?_, ⟨rfl, rfl⟩, rfl⟩
  exact List.mem_of_mem_getLast? rfl

end Arm

end Disassembler
