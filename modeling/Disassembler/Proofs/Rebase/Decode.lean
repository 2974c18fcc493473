import Disassembler.Proofs.Rebase.Absolute
import Disassembler.Proofs.Rebase.Address

/-!
# Decoding the same bytes elsewhere

The bytes of an instruction say how far its targets are away. So the same bytes at a moved address
decode to the same operation with its targets moved, and that is all that the address is used for.
One encoding counts from the page of its address, so AArch64 code can be moved by whole pages only.
-/

namespace Disassembler

/-! ## Targets that count from the address -/

/-- A kind of flow that has a target. -/
def Flow.Direct (kind : UInt64 → Flow) : Prop := ∀ t f, (kind t).mapTarget f = kind (f t)

@[simp] theorem Flow.direct_jump : Direct jump := fun _ _ => rfl

@[simp] theorem Flow.direct_branch : Direct branch := fun _ _ => rfl

@[simp] theorem Flow.direct_call : Direct call := fun _ _ => rfl

@[simp] theorem Flow.direct_ite {p : Prop} [Decidable p] {kind kind' : UInt64 → Flow}
    (h : Direct kind) (h' : Direct kind') : Direct (if p then kind else kind') := by
  split
  · exact h
  · exact h'

/-- Of an operation whose last operand is its target, both say the same afterwards. -/
theorem Operation.mapTargets_withTarget {os : List Operand} {kind : UInt64 → Flow}
    (hos : ∀ o ∈ os, o.Absolute) (hkind : Flow.Direct kind) (m : String) (t : UInt64)
    (f : UInt64 → UInt64) :
    (withTarget m os kind t).mapTargets f = withTarget m os kind (f t) := by
  rw [withTarget, mapTargets, List.map_append, map_mapTarget_of_absolute hos, hkind]
  rfl

/-- An operation whose last operand is its target moves with it. -/
theorem Operation.moveTargets_withTarget {os : List Operand} {kind : UInt64 → Flow}
    (hos : ∀ o ∈ os, o.Absolute) (hkind : Flow.Direct kind) (m : String) (t : UInt64) (d : Int) :
    (withTarget m os kind t).moveTargets (UInt64.ofInt d) = withTarget m os kind (moveBy t d) := by
  rw [moveTargets_eq, mapTargets_withTarget hos hkind]
  rfl

namespace RiscV

theorem jal_moveBy (w : UInt32) (a : UInt64) (d : Int) :
    jal w (moveBy a d) = (jal w a).moveTargets (UInt64.ofInt d) := by
  simp only [jal, moveBy_comm a d]
  simp [Operation.moveTargets_withTarget]

theorem branch_moveBy (w : UInt32) (a : UInt64) (d : Int) :
    branch w (moveBy a d) = (branch w a).map (·.moveTargets (UInt64.ofInt d)) := by
  simp only [branch, moveBy_comm a d]
  split <;> simp [Operation.moveTargets_withTarget]

/-- **The same word elsewhere.** -/
theorem decode_moveBy (w : UInt32) (a : UInt64) (d : Int) :
    decode w (moveBy a d) = (decode w a).map (·.moveTargets (UInt64.ofInt d)) := by
  unfold decode
  split
  · rfl
  · rfl
  · rw [jal_moveBy, Option.map_some]
  · rw [(absolute_jalr w).map_moveTargets]
  · exact branch_moveBy w a d
  · rw [(absolute_load w).map_moveTargets]
  · rw [(absolute_store w).map_moveTargets]
  · rw [(absolute_floatLoad w).map_moveTargets]
  · rw [(absolute_floatStore w).map_moveTargets]
  · rw [(absolute_opImm w).map_moveTargets]
  · rw [(absolute_opImm32 w).map_moveTargets]
  · rw [(absolute_op w).map_moveTargets]
  · rw [(absolute_op32 w).map_moveTargets]
  · rw [(absolute_atomic w).map_moveTargets]
  · rw [(absolute_fence w).map_moveTargets]
  · rw [(absolute_system w).map_moveTargets]
  · rfl

end RiscV

namespace AArch64

theorem branch_moveBy (w : UInt32) (a : UInt64) (d : Int) :
    branch w (moveBy a d) = (branch w a).map (·.moveTargets (UInt64.ofInt d)) := by
  have htarget : ∀ n f, wordTarget (moveBy a d) n f = moveBy (wordTarget a n f) d :=
    fun _ _ => moveBy_comm a d _
  unfold branch
  by_cases h1 : bits w 30 26 = 0x05
  · rw [if_pos h1, if_pos h1]
    simp [Operation.moveTargets_withTarget, htarget]
  rw [if_neg h1, if_neg h1]
  by_cases h2 : bits w 31 24 = 0x54 ∧ !bit w 4
  · rw [if_pos h2, if_pos h2]
    simp [Operation.moveTargets_withTarget, htarget, Function.comp_def]
  rw [if_neg h2, if_neg h2]
  by_cases h3 : bits w 30 25 = 0x1A
  · rw [if_pos h3, if_pos h3]
    simp [Operation.moveTargets_withTarget, htarget]
  rw [if_neg h3, if_neg h3]
  by_cases h4 : bits w 30 25 = 0x1B
  · rw [if_pos h4, if_pos h4]
    simp [Operation.moveTargets_withTarget, htarget]
  rw [if_neg h4, if_neg h4, Absolute.map_moveTargets]
  simp [absolute_exception]

/-- The page of an address moves with it by whole pages. -/
theorem page_moveBy (a : UInt64) {d : Int} (hd : 4096 ∣ d) :
    UInt64.ofNat ((moveBy a d).toNat >>> 12 <<< 12)
      = moveBy (UInt64.ofNat (a.toNat >>> 12 <<< 12)) d := by
  have hpage : ∀ n : Nat, n >>> 12 <<< 12 = n / 4096 * 4096 := fun n => by
    rw [Nat.shiftRight_eq_div_pow, Nat.shiftLeft_eq]
  -- wrapping loses no page, as there is a whole number of pages
  have hpages : 4096 ∣ (UInt64.ofInt d).toNat := by
    simp only [UInt64.ofInt, UInt64.toNat_ofNat']
    omega
  have ha := a.toNat_lt
  have hlt := (UInt64.ofInt d).toNat_lt
  apply UInt64.toNat_inj.mp
  simp only [hpage, moveBy, UInt64.toNat_add, UInt64.toNat_ofNat']
  omega

theorem pcAddress_moveBy (w : UInt32) (a : UInt64) {d : Int} (hd : 4096 ∣ d) :
    pcAddress w (moveBy a d) = (pcAddress w a).map (·.moveTargets (UInt64.ofInt d)) := by
  simp only [pcAddress, page_moveBy a hd, moveBy_comm _ d]
  split <;> rfl

theorem dataImmediate_moveBy (w : UInt32) (a : UInt64) {d : Int} (hd : 4096 ∣ d) :
    dataImmediate w (moveBy a d) = (dataImmediate w a).map (·.moveTargets (UInt64.ofInt d)) := by
  unfold dataImmediate
  split
  · exact pcAddress_moveBy w a hd
  · exact pcAddress_moveBy w a hd
  · rw [(absolute_addSubImm w).map_moveTargets]
  · rw [(absolute_logicalImm w).map_moveTargets]
  · rw [(absolute_moveWide w).map_moveTargets]
  · rw [(absolute_bitField w).map_moveTargets]
  · rw [(absolute_extract w).map_moveTargets]
  · rfl

theorem literal_moveBy (w : UInt32) (a : UInt64) (d : Int) :
    literal w (moveBy a d) = (literal w a).map (·.moveTargets (UInt64.ofInt d)) := by
  simp only [literal, moveBy_comm a d]
  split <;> rfl

theorem loadStore_moveBy (w : UInt32) (a : UInt64) (d : Int) :
    loadStore w (moveBy a d) = (loadStore w a).map (·.moveTargets (UInt64.ofInt d)) := by
  unfold loadStore
  split
  · exact literal_moveBy w a d
  all_goals rw [Absolute.map_moveTargets]
  · exact absolute_pair w
  · exact absolute_pair w
  · simp [absolute_ordered]
  · exact absolute_unsignedOffset w
  · simp [absolute_signedOffset, absolute_registerOffset]
  · exact absolute_none

/-- **The same word a number of pages away.** -/
theorem decode_moveBy (w : UInt32) (a : UInt64) {d : Int} (hd : 4096 ∣ d) :
    decode w (moveBy a d) = (decode w a).map (·.moveTargets (UInt64.ofInt d)) := by
  unfold decode
  split
  · exact dataImmediate_moveBy w a hd
  · exact dataImmediate_moveBy w a hd
  · split
    · rw [(absolute_system w).map_moveTargets]
    · exact branch_moveBy w a d
  · split
    · rw [(absolute_system w).map_moveTargets]
    · exact branch_moveBy w a d
  · exact loadStore_moveBy w a d
  · exact loadStore_moveBy w a d
  · exact loadStore_moveBy w a d
  · exact loadStore_moveBy w a d
  · rw [(absolute_dataRegister w).map_moveTargets]
  · rw [(absolute_dataRegister w).map_moveTargets]
  · rfl

end AArch64

/-! ## Moved instructions -/

theorem Flow.moveTarget_moveTarget (f : Flow) (d e : UInt64) :
    (f.moveTarget d).moveTarget e = f.moveTarget (d + e) := by
  cases f <;> simp [Flow.moveTarget, UInt64.add_assoc]

theorem Operand.moveTarget_moveTarget (o : Operand) (d e : UInt64) :
    (o.moveTarget d).moveTarget e = o.moveTarget (d + e) := by
  cases o <;> simp [Operand.moveTarget, UInt64.add_assoc, Function.comp_def]

theorem Operation.moveTargets_moveTargets (op : Operation) (d e : UInt64) :
    (op.moveTargets d).moveTargets e = op.moveTargets (d + e) := by
  simp only [Operation.moveTargets, List.map_map, Flow.moveTarget_moveTarget, Function.comp_def,
    Operand.moveTarget_moveTarget]

/-- The instruction of the same bytes, moved by a distance with all its targets. -/
def Instruction.rebase (d : Int) (i : Instruction) : Instruction :=
  { address := moveBy i.address d
    bytes := i.bytes
    operation := i.operation.map (·.moveTargets (UInt64.ofInt d)) }

theorem Instruction.invalid_rebase (data : List UInt8) (a : UInt64) (n : Nat) (d : Int) :
    (invalid data a n).rebase d = invalid data (moveBy a d) n := rfl

/-- The distances by which the code of a machine can be moved. -/
def Machine.Rebasable : Machine → Int → Prop
  | .x86_64, _ | .riscv64, _ => True
  | .aarch64, d => 4096 ∣ d
  | .arm, _ | .mips, _ => False

theorem X86.decode_rebase (data : List UInt8) (a : UInt64) (d : Int) :
    X86.decode data (moveBy a d) = (X86.decode data a).rebase d := by
  rcases hscan : Prefixes.scan {} (data.take Instruction.maxBytes) with ⟨p, opcode⟩
  simp only [decode, hscan]
  rcases (body p).run opcode with ⟨op, rest⟩ | rest | _
  · -- the targets count from the end, and the end moves with the start
    simp only [Instruction.rebase, Option.map_some, Operation.moveTargets_moveTargets,
      ← moveBy_add]
    rfl
  · rfl
  · rfl

theorem decodeWord_rebase {operation : UInt32 → UInt64 → Option Operation} {d : Int}
    (h : ∀ w a, operation w (moveBy a d) = (operation w a).map (·.moveTargets (UInt64.ofInt d)))
    (order : ByteOrder) (data : List UInt8) (a : UInt64) :
    decodeWord order operation data (moveBy a d)
      = (decodeWord order operation data a).rebase d := by
  unfold decodeWord
  split
  · simp only [Instruction.rebase, h]
  · rfl

/-- **The same bytes elsewhere decode to the same instruction, moved.** -/
theorem decode_rebase {m : Machine} {d : Int} (h : m.Rebasable d) (order : ByteOrder)
    (data : List UInt8) (a : UInt64) :
    decode m order data (moveBy a d) = (decode m order data a).rebase d := by
  cases m with
  | x86_64 => exact X86.decode_rebase data a d
  | riscv64 => exact decodeWord_rebase (fun w a => RiscV.decode_moveBy w a d) _ data a
  | aarch64 => exact decodeWord_rebase (fun w a => AArch64.decode_moveBy w a h) order data a
  | arm => exact absurd h id
  | mips => exact absurd h id

end Disassembler
