import Disassembler.Proofs.Operands

/-!
# Flow, target and operands agree

An operation says three times where it leads: by its flow, by the target of its flow, and by the
relative operand that is printed. In every encoding of every machine the three agree. Each encoding
is either absolute, and then says nothing of the kind, or it ends in its target. The one exception
names an address without going there. On the machines of 32 bits everything that is referred to lies
below `2 ^ 32`.
-/

namespace Disassembler

/-! ## Targets of operands -/

/-- The target of an operand that is given relative to the instruction. -/
def Operand.relative? : Operand → Option UInt64
  | .relative t => some t
  | _ => none

/-- The address that an operand stands for: a relative target, or that of memory at a distance from
the instruction. -/
def Operand.target? : Operand → Option UInt64
  | .relative t => some t
  | .memory m => m.pcTarget
  | _ => none

/-- The targets of the relative operands, in order. -/
def Operation.relatives (op : Operation) : List UInt64 := op.operands.filterMap Operand.relative?

/-- The operand is not relative, and an address that it stands for is admitted. -/
def Operand.Within (P : UInt64 → Prop) : Operand → Prop
  | .register _ | .immediate _ => True
  | .memory m => ∀ t ∈ m.pcTarget, P t
  | .relative _ => False

/-- The relative operands of an operation are as many as its flow has targets, one or none, and say
the same; and every address that an operand stands for is admitted. -/
structure Operation.Coherent (P : UInt64 → Prop) (op : Operation) : Prop where
  relatives : op.relatives = op.flow.target?.toList
  admitted : ∀ o ∈ op.operands, ∀ t ∈ o.target?, P t

/-- An operation of AArch64 that names an address and does not go there. -/
structure Operation.NamesAddress (op : Operation) : Prop where
  mnemonic : op.mnemonic = "adr" ∨ op.mnemonic = "adrp"
  flow : op.flow = .next

/-- What is encoded, if anything is, agrees with itself. -/
def Coherent (P : UInt64 → Prop) (x : Option Operation) : Prop := ∀ op ∈ x, op.Coherent P

variable {P : UInt64 → Prop}

theorem Operand.Within.relative? {o : Operand} (h : o.Within P) : o.relative? = none := by
  cases o with
  | relative t => exact absurd h id
  | _ => rfl

theorem Operand.Within.target? {o : Operand} (h : o.Within P) : ∀ t ∈ o.target?, P t := by
  cases o with
  | memory m => exact h
  | relative t => exact absurd h id
  | _ => exact fun _ ht => absurd ht (by simp [Operand.target?])

theorem Operand.Absolute.within {o : Operand} (h : o.Absolute) : o.Within P := by
  cases o with
  | memory m => exact fun t ht => absurd ht (by simp [show m.pcTarget = none from h])
  | relative t => exact absurd h id
  | _ => trivial

theorem filterMap_relative?_of_within {os : List Operand} (h : ∀ o ∈ os, o.Within P) :
    os.filterMap Operand.relative? = [] :=
  List.filterMap_eq_nil_iff.mpr fun o ho => (h o ho).relative?

namespace Operation

/-- An operation that leads nowhere directly. -/
theorem coherent_of_within {op : Operation} (hflow : op.flow.target? = none)
    (hos : ∀ o ∈ op.operands, o.Within P) : op.Coherent P := by
  refine ⟨?_, fun o ho => (hos o ho).target?⟩
  rw [relatives, filterMap_relative?_of_within hos, hflow]
  rfl

theorem Absolute.coherent {op : Operation} (h : op.Absolute) : op.Coherent P :=
  coherent_of_within h.flow fun o ho => (h.operands o ho).within

/-- An operation whose last operand is its target. -/
theorem coherent_withTarget {os : List Operand} {kind : UInt64 → Flow} {t : UInt64}
    (hos : ∀ o ∈ os, o.Absolute) (hkind : Flow.Leads kind) (ht : P t) (m : String) :
    (withTarget m os kind t).Coherent P := by
  have hwithin : ∀ o ∈ os, o.Within P := fun o ho => (hos o ho).within
  constructor
  · simp [relatives, withTarget, filterMap_relative?_of_within hwithin, hkind t, Operand.relative?]
  · intro o ho t' ht'
    rcases List.mem_append.mp ho with ho | ho
    · exact (hwithin o ho).target? t' ht'
    · obtain rfl := List.mem_singleton.mp ho
      obtain rfl := Option.some.inj ht'
      exact ht

theorem mem_relatives {op : Operation} {t : UInt64} :
    t ∈ op.relatives ↔ Operand.relative t ∈ op.operands := by
  refine List.mem_filterMap.trans ⟨?_, fun h => ⟨_, h, rfl⟩⟩
  rintro ⟨o, ho, hrelative⟩
  cases o with
  | relative t' => exact Option.some.inj hrelative ▸ ho
  | _ => exact absurd hrelative (by simp [Operand.relative?])

namespace Coherent

variable {op : Operation} {t : UInt64}

theorem relatives_of_target (h : op.Coherent P) (ht : op.flow.target? = some t) :
    op.relatives = [t] := by
  rw [h.relatives, ht]
  rfl

theorem not_mem_of_target (h : op.Coherent P) (hnone : op.flow.target? = none) :
    Operand.relative t ∉ op.operands := by
  rw [← mem_relatives, h.relatives, hnone]
  exact List.not_mem_nil

/-- The target of the flow is that of an operand, and so it is admitted too. -/
theorem target_admitted (h : op.Coherent P) (ht : op.flow.target? = some t) : P t := by
  have hmem : t ∈ op.relatives := h.relatives_of_target ht ▸ List.mem_singleton_self t
  exact h.admitted _ (mem_relatives.mp hmem) t rfl

end Coherent

end Operation

theorem Absolute.coherent {x : Option Operation} (h : Absolute x) : Coherent P x :=
  fun op hop => (h op hop).coherent

theorem Absolute.or {x y : Option Operation} (hx : Absolute x) (hy : Absolute y) :
    Absolute (x.or y) := by
  cases x with
  | none => exact hy
  | some op => exact hx

section

variable {p : Prop} [Decidable p]

@[simp] theorem Operation.coherent_ite {op op' : Operation} :
    (if p then op else op').Coherent P ↔ (p → op.Coherent P) ∧ (¬p → op'.Coherent P) := by
  split <;> simp [*]

@[simp] theorem Operand.within_memory {m : MemoryOperand} :
    (memory m).Within P ↔ ∀ t ∈ m.pcTarget, P t := Iff.rfl

@[simp] theorem coherent_none : Coherent P none := fun _ h => absurd h (by simp)

@[simp] theorem coherent_some {op : Operation} : Coherent P (some op) ↔ op.Coherent P := by
  simp [Coherent]

@[simp] theorem coherent_ite {x y : Option Operation} :
    Coherent P (if p then x else y) ↔ (p → Coherent P x) ∧ (¬p → Coherent P y) := by
  split <;> simp [*]

@[simp] theorem coherent_map {α : Type} {x : Option α} {f : α → Operation} :
    Coherent P (x.map f) ↔ ∀ a ∈ x, (f a).Coherent P := by
  cases x <;> simp

@[simp] theorem coherent_bind {α : Type} {x : Option α} {f : α → Option Operation} :
    Coherent P (x.bind f) ↔ ∀ a ∈ x, Coherent P (f a) := by
  cases x <;> simp

end

/-! ## RISC-V -/

namespace RiscV

@[simp] theorem absolute_upper (m : String) (w : UInt32) : (upper m w).Absolute := by
  simp [upper]

theorem coherent_branch (w : UInt32) (a : UInt64) : Coherent (fun _ => True) (branch w a) := by
  unfold branch
  split <;> simp [Operation.coherent_withTarget]

theorem coherent_jal (w : UInt32) (a : UInt64) : (jal w a).Coherent fun _ => True := by
  unfold jal
  split
  · simp [Operation.coherent_withTarget]
  · split <;> simp [Operation.coherent_withTarget]

theorem coherent_decode (w : UInt32) (a : UInt64) : Coherent (fun _ => True) (decode w a) := by
  unfold decode
  split
  · exact coherent_some.mpr (absolute_upper "lui" w).coherent
  · exact coherent_some.mpr (absolute_upper "auipc" w).coherent
  · exact coherent_some.mpr (coherent_jal w a)
  · exact (absolute_jalr w).coherent
  · exact coherent_branch w a
  · exact (absolute_load w).coherent
  · exact (absolute_store w).coherent
  · exact (absolute_floatLoad w).coherent
  · exact (absolute_floatStore w).coherent
  · exact (absolute_opImm w).coherent
  · exact (absolute_opImm32 w).coherent
  · exact (absolute_op w).coherent
  · exact (absolute_op32 w).coherent
  · exact (absolute_atomic w).coherent
  · exact (absolute_fence w).coherent
  · exact (absolute_system w).coherent
  · exact coherent_none

end RiscV

/-! ## AArch64 -/

namespace AArch64

/-- What an encoding of AArch64 says about addresses. -/
inductive Says : Operation → Prop where
  /-- Nothing that counts from the instruction. -/
  | absolute {op : Operation} (h : op.Absolute) : Says op
  /-- Where control goes, as the last operand. -/
  | leads (m : String) {os : List Operand} {kind : UInt64 → Flow} (hos : ∀ o ∈ os, o.Absolute)
    (hkind : Flow.Leads kind) (t : UInt64) : Says (.withTarget m os kind t)
  /-- Where the literal is that is loaded. -/
  | literal (m : String) {o : Operand} (ho : o.Absolute) (place : MemoryOperand) :
    Says { mnemonic := m, operands := [o, .memory place] }
  /-- An address that is named and where control does not go. -/
  | names {op : Operation} (h : op.NamesAddress) : Says op

/-- An operation agrees with itself, unless it only names an address. -/
theorem Says.coherent_or_namesAddress {op : Operation} (h : Says op) :
    op.Coherent (fun _ => True) ∨ op.NamesAddress := by
  cases h with
  | absolute h => exact .inl h.coherent
  | leads m hos hkind t => exact .inl (Operation.coherent_withTarget hos hkind trivial m)
  | literal m ho place =>
    refine .inl (Operation.coherent_of_within rfl ?_)
    simp [ho.within]
  | names h => exact .inr h

/-- What is encoded, if anything is, says something of these kinds. -/
def AllSay (x : Option Operation) : Prop := ∀ op ∈ x, Says op

theorem allSay_of_absolute {x : Option Operation} (h : Absolute x) : AllSay x :=
  fun op hop => .absolute (h op hop)

theorem allSay_some {op : Operation} (h : Says op) : AllSay (some op) := by
  intro op' hop'
  obtain rfl := Option.some.inj hop'
  exact h

theorem allSay_branch (w : UInt32) (a : UInt64) : AllSay (branch w a) := by
  unfold branch
  by_cases hjump : bits w 30 26 = 0x05
  · rw [if_pos hjump]
    refine allSay_some ?_
    split
    · exact .leads _ (by simp) Flow.leads_call _
    · exact .leads _ (by simp) Flow.leads_jump _
  rw [if_neg hjump]
  by_cases hcondition : bits w 31 24 = 0x54 ∧ !bit w 4
  · rw [if_pos hcondition]
    intro op hop
    obtain ⟨name, -, rfl⟩ := Option.map_eq_some_iff.mp hop
    exact .leads _ (by simp) (Flow.leads_ite Flow.leads_jump Flow.leads_branch) _
  rw [if_neg hcondition]
  by_cases hcompare : bits w 30 25 = 0x1A
  · rw [if_pos hcompare]
    exact allSay_some (.leads _ (by simp) Flow.leads_branch _)
  rw [if_neg hcompare]
  by_cases htest : bits w 30 25 = 0x1B
  · rw [if_pos htest]
    exact allSay_some (.leads _ (by simp) Flow.leads_branch _)
  rw [if_neg htest]
  -- branches to a register, returns and exceptions
  refine allSay_of_absolute ?_
  simp [absolute_exception]

theorem allSay_literal (w : UInt32) (a : UInt64) : AllSay (literal w a) := by
  unfold literal
  split
  · exact allSay_some (.literal _ (absolute_vreg 2 _) _)
  · exact allSay_some (.literal _ (absolute_vreg 3 _) _)
  · exact allSay_some (.literal _ (absolute_vreg 4 _) _)
  · exact allSay_some (.literal _ (absolute_greg false _) _)
  · exact allSay_some (.literal _ (absolute_greg true _) _)
  · exact allSay_some (.literal _ (absolute_greg true _) _)
  · exact allSay_some (.literal _ (Operand.absolute_immediate _) _)
  · exact allSay_of_absolute absolute_none

theorem allSay_loadStore (w : UInt32) (a : UInt64) : AllSay (loadStore w a) := by
  unfold loadStore
  split
  · exact allSay_literal w a
  all_goals refine allSay_of_absolute ?_
  · exact absolute_pair w
  · exact absolute_pair w
  · simp [absolute_ordered]
  · exact absolute_unsignedOffset w
  · simp [absolute_signedOffset, absolute_registerOffset]
  · exact absolute_none

theorem allSay_pcAddress (w : UInt32) (a : UInt64) : AllSay (pcAddress w a) := by
  intro op hop
  simp only [pcAddress] at hop
  split at hop
  · obtain rfl := Option.some.inj hop
    exact .names ⟨.inr rfl, rfl⟩
  · obtain rfl := Option.some.inj hop
    exact .names ⟨.inl rfl, rfl⟩

theorem allSay_dataImmediate (w : UInt32) (a : UInt64) : AllSay (dataImmediate w a) := by
  unfold dataImmediate
  split
  · exact allSay_pcAddress w a
  · exact allSay_pcAddress w a
  · exact allSay_of_absolute (absolute_addSubImm w)
  · exact allSay_of_absolute (absolute_logicalImm w)
  · exact allSay_of_absolute (absolute_moveWide w)
  · exact allSay_of_absolute (absolute_bitField w)
  · exact allSay_of_absolute (absolute_extract w)
  · exact allSay_of_absolute absolute_none

/-- **What a word says about addresses.** -/
theorem allSay_decode (w : UInt32) (a : UInt64) : AllSay (decode w a) := by
  have hcontrol : AllSay (if bits w 31 22 = 0x354 then system w else branch w a) := by
    split
    · exact allSay_of_absolute (absolute_system w)
    · exact allSay_branch w a
  unfold decode
  split
  · exact allSay_dataImmediate w a
  · exact allSay_dataImmediate w a
  · exact hcontrol
  · exact hcontrol
  · exact allSay_loadStore w a
  · exact allSay_loadStore w a
  · exact allSay_loadStore w a
  · exact allSay_loadStore w a
  · exact allSay_of_absolute (absolute_dataRegister w)
  · exact allSay_of_absolute (absolute_dataRegister w)
  · exact allSay_of_absolute absolute_none

end AArch64

/-! ## ARM -/

/-- An address of 32 bits. -/
def Is32 (t : UInt64) : Prop := t.toNat < 2 ^ 32

theorem is32_low32 (a : UInt64) : Is32 (low32 a) := by
  have hlt : a.toNat % 1 <<< 32 < 2 ^ 32 := Nat.mod_lt _ (by decide)
  rw [Is32, low32, UInt64.toNat_ofNat_of_lt' (Nat.lt_trans hlt (by decide))]
  exact hlt

namespace Arm

variable (w : UInt32) (a : UInt64)

@[simp] theorem is32_relativeTarget (d : Int) : Is32 (relativeTarget a d) := is32_low32 _

@[simp] theorem absolute_reg (r : Nat) : (reg r).Absolute := trivial

@[simp] theorem absolute_plain {m : String} {os : List Operand} :
    Absolute (plain m w os) ↔ ∀ o ∈ os, o.Absolute := by
  simp [plain]

@[simp] theorem absolute_exclusive : (exclusive w).Absolute := rfl

@[simp] theorem absolute_onlyRegister (r : Nat) : (onlyRegister r).Absolute := trivial

theorem absolute_miscellaneous : Absolute (miscellaneous w) := by
  simp [miscellaneous]

theorem absolute_multiply : Absolute (multiply w) := by
  simp [multiply]

theorem absolute_block : Absolute (block w) := by
  simp [block, registerList]

theorem absolute_source {o : Operand} (h : o ∈ source w) : o.Absolute := by
  unfold source at h
  split at h
  · obtain rfl := Option.some.inj h
    trivial
  · obtain ⟨r, -, rfl⟩ := Option.map_eq_some_iff.mp h
    trivial

theorem absolute_of_mem_shiftMove {s : Shift} {o : Operand} (h : o ∈ (shiftMove w s).operands) :
    o.Absolute := by
  revert h o
  unfold shiftMove
  split <;> simp

theorem absolute_dataProcessing : Absolute (dataProcessing w) := by
  simp only [dataProcessing, Option.bind_eq_bind, absolute_bind]
  intro stem _ src hsrc
  have hsource := absolute_source w hsrc
  split
  · simp [hsource]
  split
  · split
    · exact absolute_some.mpr ⟨by simp, fun o ho => absolute_of_mem_shiftMove w ho⟩
    · simp [hsource]
  · split <;> simp [hsource]

theorem absolute_immediateForms : Absolute (immediateForms w) := by
  simp [immediateForms, absolute_dataProcessing]

@[simp] theorem within_displaced (n : Nat) (width size : UInt8) :
    (displaced w a n width size).Within Is32 := by
  simp only [displaced, Operand.within_memory]
  split <;> simp

@[simp] theorem absolute_indexed (shift : Option Shift) (size : UInt8) :
    (indexed w shift size).Absolute := rfl

theorem coherent_unconditional : Coherent Is32 (unconditional w a) := by
  unfold unconditional
  simp only [coherent_ite, coherent_some]
  refine ⟨fun _ => ?_, fun _ => ⟨fun _ => ?_, fun _ => ⟨fun _ => ?_, fun _ => ?_⟩⟩⟩
  · exact Operation.coherent_withTarget (by simp) Flow.leads_call (is32_relativeTarget _ _) _
  · exact Operation.Absolute.coherent (by simp)
  · exact Operation.Absolute.coherent (by simp)
  · refine Absolute.coherent ?_
    split <;> simp

theorem coherent_extraLoadStore : Coherent Is32 (extraLoadStore w a) := by
  simp only [extraLoadStore, Option.bind_eq_bind, coherent_bind]
  intro t _
  -- registers and a place
  have hplace : (if bit w 22 then displaced w a (bits w 11 8 <<< 4 + bits w 3 0) 8 t.size
      else indexed w none t.size).Within Is32 := by
    split
    · exact within_displaced w a _ _ _
    · exact (absolute_indexed w _ _).within
  simp only [coherent_ite, coherent_some, coherent_none]
  refine ⟨fun _ => ⟨fun _ => trivial, fun _ => ?_⟩, fun _ => ?_⟩
  · refine Operation.coherent_of_within rfl ?_
    simp [hplace, (absolute_reg _).within]
  · refine Operation.coherent_of_within (by simp) ?_
    simp [hplace, (absolute_reg _).within]

theorem coherent_loadStore : Coherent Is32 (loadStore w a) := by
  have htransfer : ∀ place : Operand, place.Within Is32 → Coherent Is32 (some
      { mnemonic := conditional (transferStem w) w, operands := [reg (rd w), place]
        flow := if bit w 20 ∧ rd w = pc then .indirect else .next }) := by
    intro place hplace
    refine coherent_some.mpr (Operation.coherent_of_within (by simp) ?_)
    simp [hplace, (absolute_reg _).within]
  by_cases hindex : bit w 25
  · simp only [loadStore, if_pos hindex, coherent_ite]
    exact ⟨fun _ => coherent_none, fun _ => htransfer _ (absolute_indexed w _ _).within⟩
  · simp only [loadStore, if_neg hindex, coherent_ite]
    refine ⟨fun _ => ?_, fun _ => ⟨fun _ => ?_, fun _ => ?_⟩⟩
    · exact Absolute.coherent (by simp)
    · exact Absolute.coherent (by simp)
    · exact htransfer _ (within_displaced w a _ _ _)

theorem coherent_branch : (branch w a).Coherent Is32 := by
  simp [branch, Operation.coherent_withTarget]

theorem coherent_registerForms : Coherent Is32 (registerForms w a) := by
  unfold registerForms
  split
  · split
    · exact ((absolute_multiply w).or (absolute_miscellaneous w)).coherent
    · exact coherent_extraLoadStore w a
  · split
    · exact (absolute_miscellaneous w).coherent
    · exact (absolute_dataProcessing w).coherent

theorem coherent_decode : Coherent Is32 (decode w a) := by
  unfold decode
  rw [coherent_ite]
  refine ⟨fun _ => coherent_unconditional w a, fun _ => ?_⟩
  split
  · exact coherent_registerForms w a
  · exact (absolute_immediateForms w).coherent
  · exact coherent_loadStore w a
  · simp [coherent_loadStore, Operation.Absolute.coherent]
  · exact (absolute_block w).coherent
  · exact coherent_some.mpr (coherent_branch w a)
  · refine Absolute.coherent ?_
    simp
  · exact coherent_none

end Arm

/-! ## MIPS -/

namespace Mips

variable (w : UInt32) (a : UInt64)

@[simp] theorem is32_branchTarget : Is32 (branchTarget w a) := is32_low32 _

@[simp] theorem is32_jumpTarget : Is32 (jumpTarget w a) := by
  have hfield : bits w 25 0 < 2 ^ 26 := bits_lt w 25 0
  have hregion : ((a + 4).toNat % 1 <<< 32) >>> 28 <<< 28 ≤ 2 ^ 32 - 2 ^ 28 := by
    rw [Nat.shiftRight_eq_div_pow, Nat.shiftLeft_eq]
    have hlt : (a + 4).toNat % 1 <<< 32 < 2 ^ 32 := Nat.mod_lt _ (by decide)
    omega
  have hlt : ((a + 4).toNat % 1 <<< 32) >>> 28 <<< 28 + 4 * bits w 25 0 < 2 ^ 32 := by omega
  rw [Is32, jumpTarget, UInt64.toNat_ofNat_of_lt' (Nat.lt_trans hlt (by decide))]
  exact hlt

@[simp] theorem absolute_greg (r : Nat) : (greg r).Absolute := trivial

@[simp] theorem absolute_freg (r : Nat) : (freg r).Absolute := trivial

@[simp] theorem absolute_sysreg (r : Nat) : (sysreg r).Absolute := trivial

@[simp] theorem absolute_small (v : Nat) : (small v).Absolute := trivial

@[simp] theorem absolute_simm : (simm w).Absolute := trivial

@[simp] theorem absolute_uimm : (uimm w).Absolute := trivial

@[simp] theorem absolute_based (size : UInt8) : (based w size).Absolute := rfl

@[simp] theorem absolute_plain {m : String} {os : List Operand} :
    Absolute (plain m os) ↔ ∀ o ∈ os, o.Absolute := by
  simp [plain]

@[simp] theorem coherent_plain {m : String} {os : List Operand} (hos : ∀ o ∈ os, o.Absolute) :
    Coherent Is32 (plain m os) := (absolute_plain.mpr hos).coherent

@[simp] theorem coherent_branchTo {os : List Operand} (hos : ∀ o ∈ os, o.Absolute) (m : String) :
    Coherent Is32 (branchTo m os w a) := by
  simp [branchTo, Operation.coherent_withTarget hos]

@[simp] theorem coherent_jumpTo (m : String) : Coherent Is32 (jumpTo m w a) := by
  simp [jumpTo, Operation.coherent_withTarget]

@[simp] theorem coherent_callTo {os : List Operand} (hos : ∀ o ∈ os, o.Absolute) (m : String) :
    Coherent Is32 (callTo m os w a) := by
  simp [callTo, Operation.coherent_withTarget hos]

theorem absolute_special : Absolute (special w) := by
  unfold special
  split <;> simp [threeRegs, twoSources, variableShift, fixedShift, fromFirst, fromSecond]
  -- the register that a call links to may be left out
  split <;> simp

theorem absolute_special2 : Absolute (special2 w) := by
  unfold special2
  split <;> simp [threeRegs, twoSources, fromFirst]

theorem absolute_special3 : Absolute (special3 w) := by
  unfold special3
  split
  · simp
  · simp
  · split <;> simp [fromSecond]
  · simp
  · simp

theorem absolute_cop0 : Absolute (cop0 w) := by
  unfold cop0
  split
  · simp
  · simp
  · simp
  · split
    · exact absolute_none
    · split <;> simp

theorem absolute_access : Absolute (access w) := by
  unfold access
  split <;> simp

theorem absolute_immediate : Absolute (immediate w) := by
  unfold immediate
  split <;> simp

theorem coherent_regimm : Coherent Is32 (regimm w a) := by
  unfold regimm
  split <;> simp

theorem coherent_compare (short full : String) : Coherent Is32 (compare short full w a) := by
  simp [compare]

theorem coherent_cop1 : Coherent Is32 (cop1 w a) := by
  unfold cop1
  split <;> simp

theorem coherent_decode : Coherent Is32 (decode w a) := by
  unfold decode
  split
  · exact (absolute_special w).coherent
  · exact coherent_regimm w a
  · simp [Operation.coherent_withTarget]
  · simp [Operation.coherent_withTarget]
  · simp [coherent_compare]
  · exact coherent_compare w a _ _
  · simp
  · simp
  · exact (absolute_cop0 w).coherent
  · exact coherent_cop1 w a
  · exact coherent_compare w a _ _
  · exact coherent_compare w a _ _
  · simp
  · simp
  · exact (absolute_special2 w).coherent
  · exact (absolute_special3 w).coherent
  · simp [(absolute_immediate w).coherent, (absolute_access w).coherent]

end Mips

/-! ## x86-64 -/

theorem Flow.target?_moveTarget (f : Flow) (d : UInt64) :
    (f.moveTarget d).target? = f.target?.map (· + d) := by
  cases f <;> rfl

theorem Operand.relative?_moveTarget (o : Operand) (d : UInt64) :
    (o.moveTarget d).relative? = o.relative?.map (· + d) := by
  cases o <;> rfl

/-- Targets that are moved together stay the same. -/
theorem Operation.Coherent.moveTargets {op : Operation} (h : op.Coherent fun _ => True)
    (d : UInt64) : (op.moveTargets d).Coherent fun _ => True := by
  refine ⟨?_, fun _ _ _ _ => trivial⟩
  have hmoved : (op.moveTargets d).relatives = op.relatives.map (· + d) := by
    simp only [Operation.relatives, Operation.moveTargets, List.filterMap_map, List.map_filterMap,
      Function.comp_def, Operand.relative?_moveTarget]
  rw [hmoved, h.relatives, Operation.moveTargets, Flow.target?_moveTarget]
  cases op.flow.target? <;> rfl

namespace X86

variable {p : Prefixes} {used : List UInt8} {op : Operation}

theorem IsOperand.within {o : Operand} (h : IsOperand p used o) : o.Within fun _ => True := by
  cases h with
  | place | absolute => exact fun _ _ => trivial
  | _ => trivial

theorem IsOperation.coherent {near : Nat} (h : IsOperation p near used op) :
    op.Coherent fun _ => True := by
  cases h with
  | plain _ h => exact Operation.coherent_of_within h.flow fun o ho => (h.operands o ho).within
  | near m hkind _ => exact Operation.coherent_withTarget (by simp) hkind trivial m

theorem IsBody.coherent (h : IsBody p used op) : op.Coherent fun _ => True := by
  cases h with
  | primary _ h => exact h.coherent
  | secondary h => exact h.coherent

theorem coherent_withLock (h : op.Coherent fun _ => True) :
    (withLock p op).Coherent fun _ => True := by
  unfold withLock
  split
  · exact ⟨h.relatives, h.admitted⟩
  · exact h

theorem coherent_decode (data : List UInt8) (a : UInt64) :
    Coherent (fun _ => True) (decode data a).operation := by
  unfold decode
  rcases Prefixes.scan {} (data.take Instruction.maxBytes) with ⟨p, opcode⟩
  dsimp only
  split
  · rename_i hrun
    obtain ⟨_, -, hbody⟩ := reads_body.of_run hrun
    exact coherent_some.mpr ((coherent_withLock hbody.coherent).moveTargets _)
  · exact coherent_none
  · exact coherent_none

end X86

/-! ## Every machine -/

theorem decodeWord_forall {Q : Operation → Prop} {operation : UInt32 → UInt64 → Option Operation}
    (h : ∀ w a, ∀ op ∈ operation w a, Q op) (order : ByteOrder) (data : List UInt8) (a : UInt64) :
    ∀ op ∈ (decodeWord order operation data a).operation, Q op := by
  unfold decodeWord
  split
  · exact h _ a
  · exact fun _ hop => absurd hop (by simp [Instruction.invalid])

/-- The addresses that a machine has. -/
def Machine.Has : Machine → UInt64 → Prop
  | .arm, t | .mips, t => Is32 t
  | .x86_64, _ | .aarch64, _ | .riscv64, _ => True

/-- What is decoded agrees with itself or, for AArch64 only, names an address. -/
theorem coherent_or_namesAddress (m : Machine) (order : ByteOrder) (data : List UInt8)
    (a : UInt64) : ∀ op ∈ (decode m order data a).operation,
      op.Coherent m.Has ∨ (m = .aarch64 ∧ op.NamesAddress) := by
  cases m with
  | x86_64 => exact fun op hop => .inl (X86.coherent_decode data a op hop)
  | riscv64 =>
    exact decodeWord_forall (fun w a op hop => .inl (RiscV.coherent_decode w a op hop)) _ data a
  | aarch64 =>
    refine decodeWord_forall (fun w a op hop => ?_) order data a
    exact (AArch64.allSay_decode w a op hop).coherent_or_namesAddress.imp_right fun h => ⟨rfl, h⟩
  | arm =>
    exact decodeWord_forall (fun w a op hop => .inl (Arm.coherent_decode w a op hop)) order data a
  | mips =>
    exact decodeWord_forall (fun w a op hop => .inl (Mips.coherent_decode w a op hop)) order data a

/--
**Flow, target and operands agree.**

Whatever the machine, its byte order, the bytes and the address, an instruction has a target if and
only if it is a jump, a branch or a call. Then it has one relative operand, which says the same
target. With any other flow there is no relative operand, unless it is the address that an `adr` or
`adrp` of AArch64 names. On the machines of 32 bits the target and all that an operand refers to
are addresses of 32 bits.
-/
theorem decode_agrees (m : Machine) (order : ByteOrder) (data : List UInt8) (a : UInt64) :
    let i := decode m order data a
    (i.flow.target?.isSome ↔ i.flow.name ∈ ["branch", "cond_branch", "call"])
      ∧ (∀ t, i.flow.target? = some t → i.operands.filterMap Operand.relative? = [t])
      ∧ (i.flow.target? = none → (∃ t, Operand.relative t ∈ i.operands) →
        m = .aarch64 ∧ (i.mnemonic = "adr" ∨ i.mnemonic = "adrp"))
      ∧ (m = .arm ∨ m = .mips → (∀ t, i.flow.target? = some t → t.toNat < 2 ^ 32)
        ∧ ∀ o ∈ i.operands, ∀ t, o.target? = some t → t.toNat < 2 ^ 32) := by
  intro i
  refine ⟨by cases i.flow <;> simp [Flow.target?, Flow.name], ?_⟩
  rw [Instruction.flow, Instruction.operands, Instruction.mnemonic]
  cases hop : i.operation with
  | none => exact ⟨fun _ h => absurd h (by simp), fun _ h => absurd h (by simp), by simp⟩
  | some op =>
    dsimp only
    rcases coherent_or_namesAddress m order data a op hop with h | ⟨rfl, h⟩
    · refine ⟨fun t => h.relatives_of_target, fun hnone => ?_, fun hm => ?_⟩
      · rintro ⟨t, ht⟩
        exact absurd ht (h.not_mem_of_target hnone)
      · have hhas : ∀ t, m.Has t → Is32 t := by
          rcases hm with rfl | rfl <;> exact fun _ => id
        refine ⟨fun t ht => hhas t (h.target_admitted ht), fun o ho t ht => ?_⟩
        exact hhas t (h.admitted o ho t ht)
    · have hnone : op.flow.target? = none := by rw [h.flow]; rfl
      refine ⟨fun t ht => ?_, fun _ _ => ⟨rfl, h.mnemonic⟩, by simp⟩
      rw [hnone] at ht
      exact absurd ht (by simp)

/-- A conditional branch of ARM from just below the top of its addresses comes to one near zero. -/
theorem decode_agrees_wrapped :
    let i := decode .arm .little [0x02, 0x00, 0x00, 0x1A] 0xFFFFFFF8
    i.flow.target? = some 8 ∧ i.operands.filterMap Operand.relative? = [8]
      ∧ (8 : UInt64).toNat < 2 ^ 32 := by
  intro i
  obtain ⟨-, hrelative, -, hlow⟩ :=
    decode_agrees .arm .little [0x02, 0x00, 0x00, 0x1A] 0xFFFFFFF8
  have htarget : i.flow.target? = some 8 := by decide +kernel
  exact ⟨htarget, hrelative 8 htarget, (hlow (.inl rfl)).1 8 htarget⟩

end Disassembler
