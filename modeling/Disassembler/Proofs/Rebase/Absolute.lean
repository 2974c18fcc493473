import Disassembler.Decode

/-!
# Operations without a target

Most encodings have no target that counts from the address, so their operations are the same
wherever they stand. Such operations are *absolute*: whatever is done to their targets changes
nothing. Whether an encoding is absolute is settled by the operands that it is built of, and the
lemmas about those decide it for each encoding of RISC-V and AArch64 but the few that are given the
address.
-/

namespace Disassembler

/-! ## Replacing targets -/

/-- The flow with its target replaced by a function of it. -/
def Flow.mapTarget (f : UInt64 → UInt64) : Flow → Flow
  | .jump t => .jump (f t)
  | .branch t => .branch (f t)
  | .call t => .call (f t)
  | .next => .next
  | .ret => .ret
  | .indirect => .indirect

/-- The operand with the address that it stands for replaced by a function of it. -/
def Operand.mapTarget (f : UInt64 → UInt64) : Operand → Operand
  | .relative t => .relative (f t)
  | .memory m => .memory { m with pcTarget := m.pcTarget.map f }
  | o => o

/-- The operation with every target replaced by a function of it. -/
def Operation.mapTargets (op : Operation) (f : UInt64 → UInt64) : Operation :=
  { op with operands := op.operands.map (·.mapTarget f), flow := op.flow.mapTarget f }

/-- Moving targets is one way to replace them. -/
theorem Operation.moveTargets_eq (op : Operation) (d : UInt64) :
    op.moveTargets d = op.mapTargets (· + d) := by
  have hflow : op.flow.moveTarget d = op.flow.mapTarget (· + d) := by cases op.flow <;> rfl
  have hoperand : ∀ o : Operand, o.moveTarget d = o.mapTarget (· + d) := fun o => by cases o <;> rfl
  rw [moveTargets, mapTargets, hflow, List.map_congr_left fun o _ => hoperand o]

/-! ## Absolute operations -/

/-- The operand is the same wherever its instruction stands. -/
def Operand.Absolute : Operand → Prop
  | .register _ | .immediate _ => True
  | .memory m => m.pcTarget = none
  | .relative _ => False

/-- The operation is the same wherever it stands. -/
structure Operation.Absolute (op : Operation) : Prop where
  flow : op.flow.target? = none
  operands : ∀ o ∈ op.operands, o.Absolute

/-- What is encoded, if anything is, is the same wherever it stands. -/
def Absolute (x : Option Operation) : Prop := ∀ op ∈ x, op.Absolute

variable {f : UInt64 → UInt64}

theorem Operand.Absolute.mapTarget {o : Operand} (h : o.Absolute) (f : UInt64 → UInt64) :
    o.mapTarget f = o := by
  cases o with
  | register r => rfl
  | immediate i => rfl
  | memory m =>
    have hnone : m.pcTarget = none := h
    rw [Operand.mapTarget, hnone, Option.map_none, ← hnone]
  | relative t => exact absurd h id

theorem map_mapTarget_of_absolute {os : List Operand} (h : ∀ o ∈ os, o.Absolute)
    (f : UInt64 → UInt64) : os.map (·.mapTarget f) = os := by
  rw [List.map_congr_left fun o ho => (h o ho).mapTarget f, List.map_id']

theorem Flow.mapTarget_of_target? {flow : Flow} (h : flow.target? = none) (f : UInt64 → UInt64) :
    flow.mapTarget f = flow := by
  cases flow with
  | jump | branch | call => exact absurd h (by simp [target?])
  | _ => rfl

theorem Operation.Absolute.mapTargets {op : Operation} (h : op.Absolute) (f : UInt64 → UInt64) :
    op.mapTargets f = op := by
  rw [Operation.mapTargets, Flow.mapTarget_of_target? h.flow, map_mapTarget_of_absolute h.operands]

theorem Absolute.map_mapTargets {x : Option Operation} (h : Absolute x) (f : UInt64 → UInt64) :
    x.map (·.mapTargets f) = x := by
  cases x with
  | none => rfl
  | some op => exact congrArg some ((h op rfl).mapTargets f)

theorem Absolute.map_moveTargets {x : Option Operation} (h : Absolute x) (d : UInt64) :
    x.map (·.moveTargets d) = x := by
  simp only [Operation.moveTargets_eq, h.map_mapTargets]

/-! ## What encodings are built of -/

section

variable {p : Prop} [Decidable p]

@[simp] theorem Flow.target?_next : next.target? = none := rfl

@[simp] theorem Flow.target?_ret : ret.target? = none := rfl

@[simp] theorem Flow.target?_indirect : indirect.target? = none := rfl

@[simp] theorem Flow.target?_ite {f f' : Flow} :
    (if p then f else f').target? = if p then f.target? else f'.target? := by
  split <;> rfl

@[simp] theorem Operand.absolute_register (r : RegisterOperand) : (register r).Absolute := trivial

@[simp] theorem Operand.absolute_reg (n : Option String) : (reg n).Absolute := trivial

@[simp] theorem Operand.absolute_named (n : String) : (named n).Absolute := trivial

@[simp] theorem Operand.absolute_immediate (i : ImmediateOperand) : (immediate i).Absolute :=
  trivial

@[simp] theorem Operand.absolute_signedImm (v : Int) (n : UInt8) : (signedImm v n).Absolute :=
  trivial

@[simp] theorem Operand.absolute_decimalImm (v : Int) (n : UInt8) : (decimalImm v n).Absolute :=
  trivial

@[simp] theorem Operand.absolute_hexImm (v : Int) (n : UInt8) : (hexImm v n).Absolute := trivial

@[simp] theorem Operand.absolute_memory (m : MemoryOperand) :
    (memory m).Absolute ↔ m.pcTarget = none := Iff.rfl

@[simp] theorem Operand.absolute_ite {o o' : Operand} :
    (if p then o else o').Absolute ↔ (p → o.Absolute) ∧ (¬p → o'.Absolute) := by
  split <;> simp [*]

@[simp] theorem Operation.absolute_mk {m : String} {os : List Operand} {f : Flow} :
    (Operation.mk m os f).Absolute ↔ f.target? = none ∧ ∀ o ∈ os, o.Absolute :=
  ⟨fun h => ⟨h.flow, h.operands⟩, fun h => ⟨h.1, h.2⟩⟩

@[simp] theorem Operation.absolute_ite {op op' : Operation} :
    (if p then op else op').Absolute ↔ (p → op.Absolute) ∧ (¬p → op'.Absolute) := by
  split <;> simp [*]

@[simp] theorem Operation.moveTargets_ite {op op' : Operation} {d : UInt64} :
    (if p then op else op').moveTargets d = if p then op.moveTargets d else op'.moveTargets d := by
  split <;> rfl

@[simp] theorem Operation.mapTargets_ite {op op' : Operation} :
    (if p then op else op').mapTargets f = if p then op.mapTargets f else op'.mapTargets f := by
  split <;> rfl

@[simp] theorem absolute_none : Absolute none := fun _ h => absurd h (by simp)

@[simp] theorem absolute_some {op : Operation} : Absolute (some op) ↔ op.Absolute := by
  simp [Absolute]

@[simp] theorem absolute_ite {x y : Option Operation} :
    Absolute (if p then x else y) ↔ (p → Absolute x) ∧ (¬p → Absolute y) := by
  split <;> simp [*]

@[simp] theorem absolute_bind {α : Type} {x : Option α} {f : α → Option Operation} :
    Absolute (x.bind f) ↔ ∀ a ∈ x, Absolute (f a) := by
  cases x <;> simp

@[simp] theorem absolute_map {α : Type} {x : Option α} {f : α → Operation} :
    Absolute (x.map f) ↔ ∀ a ∈ x, (f a).Absolute := by
  cases x <;> simp

end

/-! ## RISC-V -/

namespace RiscV

variable (w : UInt32)

@[simp] theorem absolute_xreg (r : Nat) : (xreg r).Absolute := trivial

@[simp] theorem absolute_freg (r : Nat) : (freg r).Absolute := trivial

@[simp] theorem absolute_based (b : Nat) (d : Int) (s : UInt8) : (based b d s).Absolute := rfl

@[simp] theorem absolute_unbased (b : Nat) (s : UInt8) : (unbased b s).Absolute := rfl

@[simp] theorem absolute_csrOperand (n : Nat) : (csrOperand n).Absolute := by
  unfold csrOperand
  split <;> simp

theorem absolute_jalr : Absolute (jalr w) := by simp [jalr]

theorem absolute_load : Absolute (load w) := by simp [load]

theorem absolute_store : Absolute (store w) := by simp [store]

theorem absolute_floatLoad : Absolute (floatLoad w) := by
  unfold floatLoad
  split <;> simp

theorem absolute_floatStore : Absolute (floatStore w) := by
  unfold floatStore
  split <;> simp

theorem absolute_opImm : Absolute (opImm w) := by
  unfold opImm
  split <;> simp [unary, withImm, withShift]

theorem absolute_opImm32 : Absolute (opImm32 w) := by
  unfold opImm32
  split <;> simp [unary, withImm, withShift]

theorem absolute_op : Absolute (op w) := by
  unfold op
  split <;> simp [unarySecond, binary]

theorem absolute_op32 : Absolute (op32 w) := by
  unfold op32
  split <;> simp [unarySecond, binary]

theorem absolute_atomic : Absolute (atomic w) := by
  simp only [atomic, Option.bind_eq_bind]
  split <;> simp

theorem absolute_fence : Absolute (fence w) := by
  unfold fence
  split <;> simp

theorem absolute_privileged : Absolute (privileged w) := by
  unfold privileged
  split
  · simp
  split
  · simp
  split <;> simp

theorem absolute_csrAccess : Absolute (csrAccess w) := by simp [csrAccess]

theorem absolute_system : Absolute (system w) := by
  unfold system
  split
  · exact absolute_privileged w
  · exact absolute_none
  · exact absolute_csrAccess w

end RiscV

/-! ## AArch64 -/

namespace AArch64

variable (w : UInt32)

@[simp] theorem absolute_greg (wide : Bool) (r : Nat) : (greg wide r).Absolute := trivial

@[simp] theorem absolute_sreg (wide : Bool) (r : Nat) : (sreg wide r).Absolute := trivial

@[simp] theorem absolute_vreg (k r : Nat) : (vreg k r).Absolute := trivial

@[simp] theorem absolute_conditionOperand (c : Nat) : (conditionOperand c).Absolute := trivial

@[simp] theorem absolute_small (v : Nat) : (small v).Absolute := trivial

@[simp] theorem absolute_shiftedImm (v : Nat) (n : UInt8) (k : Nat) :
    (shiftedImm v n k).Absolute := trivial

@[simp] theorem absolute_shiftedReg (wide : Bool) (r k n : Nat) :
    (shiftedReg wide r k n).Absolute := trivial

@[simp] theorem absolute_systemOperand : (systemOperand w).Absolute := by
  unfold systemOperand
  split <;> simp

@[simp] theorem pcTarget_based : (based w).pcTarget = none := rfl

@[simp] theorem absolute_plain {m : String} {os : List Operand} :
    Absolute (plain m os) ↔ ∀ o ∈ os, o.Absolute := by
  simp [plain]

theorem absolute_exception : Absolute (exception w) := by
  unfold exception
  split <;> simp

theorem absolute_hint : Absolute (hint w) := by
  unfold hint
  split <;> simp

theorem absolute_barrier : Absolute (barrier w) := by
  unfold barrier
  split <;> simp

theorem absolute_system : Absolute (system w) := by
  simp [system, absolute_hint, absolute_barrier]

theorem absolute_addSubImm : Absolute (addSubImm w) := by simp [addSubImm]

theorem absolute_logicalImm : Absolute (logicalImm w) := by simp [logicalImm]

theorem absolute_moveWide : Absolute (moveWide w) := by
  unfold moveWide
  simp only [absolute_ite, absolute_none, implies_true, true_and]
  intro
  split <;> simp

theorem absolute_bitField : Absolute (bitField w) := by
  unfold bitField
  simp only [absolute_ite, absolute_none, implies_true, true_and]
  intro
  split <;> simp

theorem absolute_extract : Absolute (extract w) := by simp [extract]

theorem absolute_logicalReg : Absolute (logicalReg w) := by simp [logicalReg]

theorem absolute_addSubShifted : Absolute (addSubShifted w) := by simp [addSubShifted]

theorem absolute_addSubExtended : Absolute (addSubExtended w) := by simp [addSubExtended]

theorem absolute_conditionalCompare : Absolute (conditionalCompare w) := by
  simp [conditionalCompare]

theorem absolute_conditionalSelect : Absolute (conditionalSelect w) := by
  simp [conditionalSelect]

theorem absolute_multiply : Absolute (multiply w) := by
  unfold multiply
  split <;> split <;> simp

theorem absolute_dataRegister : Absolute (dataRegister w) := by
  unfold dataRegister
  split
  · exact absolute_logicalReg w
  · simp [absolute_addSubExtended, absolute_addSubShifted]
  · split <;> simp [absolute_conditionalCompare, absolute_conditionalSelect]
  · exact absolute_multiply w
  · exact absolute_none

theorem absolute_pair : Absolute (pair w) := by
  unfold pair
  split <;> simp

theorem absolute_ordered : Absolute (ordered w) := by
  simp only [ordered, Option.bind_eq_bind, absolute_bind]
  intro ending _
  split <;> simp

theorem absolute_operand_of_transfer {t : Transfer} (h : t ∈ transfer w) : t.operand.Absolute := by
  have hvector : ∀ t ∈ vectorTransfer w, t.operand.Absolute := by
    simp only [vectorTransfer]
    split
    · split <;> simp
    · simp
  have hgeneral : ∀ t ∈ generalTransfer w, t.operand.Absolute := by
    simp only [generalTransfer]
    split <;> simp
  unfold transfer at h
  split at h
  · exact hvector t h
  · exact hgeneral t h

theorem absolute_unsignedOffset : Absolute (unsignedOffset w) := by
  simp +contextual [unsignedOffset, absolute_operand_of_transfer w]

theorem absolute_registerOffset : Absolute (registerOffset w) := by
  simp +contextual [registerOffset, absolute_operand_of_transfer w]

theorem absolute_signedOffset : Absolute (signedOffset w) := by
  simp only [signedOffset, Option.bind_eq_bind, absolute_bind]
  intro t ht
  have htransferred := absolute_operand_of_transfer w ht
  split <;> simp [htransferred]

end AArch64

end Disassembler
