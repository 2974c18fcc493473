import Disassembler.Sweep
import Disassembler.Proofs.Delimiting
import Disassembler.Proofs.Fields
import Disassembler.Proofs.Operands

/-!
# Conditional instructions of ARM

Every encoding below the unconditional space has a condition, and falls through when it fails. Of
all of them only the branch asks for its condition when it says where control goes. The others that
leave the code at hand say so whatever the condition: a conditional instruction ends a sweep if and
only if, without its condition, it would be one of the four forms of a return.
-/

namespace Disassembler

/-! ## Flows that end a sweep -/

/-- Something is encoded, and its flow has a property. -/
def HasFlow (P : Flow → Prop) (x : Option Operation) : Prop := ∃ op ∈ x, P op.flow

/-- A property that only returns and jumps can have, the flows at which a sweep may end. -/
structure Flow.Final (P : Flow → Prop) : Prop where
  next : ¬ P .next
  indirect : ¬ P .indirect
  branch : ∀ t, ¬ P (.branch t)
  call : ∀ t, ¬ P (.call t)

section

variable {P : Flow → Prop} {p : Prop} [Decidable p]

@[simp] theorem not_hasFlow_none : ¬ HasFlow P none := by simp [HasFlow]

@[simp] theorem hasFlow_some {op : Operation} : HasFlow P (some op) ↔ P op.flow := by
  simp [HasFlow]

@[simp] theorem hasFlow_ite {x y : Option Operation} :
    HasFlow P (if p then x else y) ↔ if p then HasFlow P x else HasFlow P y := by
  split <;> rfl

@[simp] theorem hasFlow_map {α : Type} {x : Option α} {f : α → Operation} :
    HasFlow P (x.map f) ↔ ∃ a ∈ x, P (f a).flow := by
  cases x <;> simp

@[simp] theorem hasFlow_bind {α : Type} {x : Option α} {f : α → Option Operation} :
    HasFlow P (x.bind f) ↔ ∃ a ∈ x, HasFlow P (f a) := by
  cases x <;> simp

theorem HasFlow.of_or {x y : Option Operation} (h : HasFlow P (x.or y)) :
    HasFlow P x ∨ HasFlow P y := by
  cases x with
  | none => exact .inr h
  | some op => exact .inl h

/-- Leaving through `pc` is nothing final. -/
theorem Flow.Final.leave (hP : Final P) : ¬ P (if p then .indirect else .next) := by
  split
  · exact hP.indirect
  · exact hP.next

end

namespace Arm

/-- The words that return to the caller, whatever their condition. -/
inductive Returns (w : UInt32) : Prop where
  /-- `bx lr` -/
  | exchange (hop : bits w 27 4 = 0x12FFF1) (hrm : rm w = lr)
  /-- `mov pc, lr` -/
  | move (hclass : bits w 27 25 = 0) (hkind : bits w 24 21 = 13) (hrd : rd w = pc)
    (hplain : bits w 11 4 = 0) (hrm : rm w = lr)
  /-- `pop {pc}`, as a load of one register -/
  | pop (hclass : bits w 27 25 = 2) (hmode : bits w 24 20 = 0b01001) (hrn : rn w = sp)
    (hrd : rd w = pc) (hoffset : bits w 11 0 = 4)
  /-- A load of many registers from the stack, with `pc` among them. -/
  | block (hclass : bits w 27 25 = 4) (hload : bit w 20) (hrn : rn w = sp) (hpc : bit w 15)

/-! ### Fields that tell the forms apart -/

section

variable (w : UInt32)

theorem fixedShift_eq_none_iff : fixedShift w = none ↔ bits w 11 7 = 0 ∧ bits w 6 5 = 0 := by
  unfold fixedShift
  dsimp only
  split
  · simp [*]
  · split
    · simp_all
    · split <;> simp_all

/-- A register is plain if the field of its shift is zero. -/
theorem shift_eq_none_iff {r : RegisterOperand} (h : r ∈ shiftedRegister w) :
    r.shift = none ↔ bits w 11 4 = 0 := by
  have hfields : bits w 11 4 = 0 ↔ bit w 4 = false ∧ bits w 11 7 = 0 ∧ bits w 6 5 = 0 := by
    simp only [bit_eq_false_iff, bits_eq]
    omega
  rw [hfields]
  unfold shiftedRegister at h
  dsimp only at h
  split at h
  · split at h
    · exact absurd h (by simp)
    · obtain rfl := Option.some.inj h
      simp [*]
  · obtain rfl := Option.some.inj h
    simp [fixedShift_eq_none_iff, *]

/-- A source without an immediate and without a shift is the register by itself. -/
theorem source_of_plain (himm : bit w 25 = false) (hplain : bits w 11 4 = 0) :
    source w = some (.register { name := registerNames[rm w]? }) := by
  have hbit : bit w 4 = false := by
    simp only [bit_eq_false_iff, bits_eq] at hplain ⊢
    omega
  have hshift : fixedShift w = none := by
    rw [fixedShift_eq_none_iff]
    simp only [bits_eq] at hplain ⊢
    omega
  simp [source, shiftedRegister, himm, hbit, hshift]

/-- The fields of `bx` that tell it from the other register forms. -/
theorem fields_of_exchange (h : bits w 27 4 = 0x12FFF1) :
    bits w 27 25 = 0 ∧ bits w 24 23 = 2 ∧ bit w 20 = false ∧ bit w 7 = false := by
  simp only [bit_eq_false_iff, bits_eq] at h ⊢
  omega

/-- The fields of a plain move that tell it from the other register forms. -/
theorem fields_of_move (hkind : bits w 24 21 = 13) (hplain : bits w 11 4 = 0) :
    bits w 24 23 = 3 ∧ bit w 7 = false := by
  simp only [bit_eq_false_iff, bits_eq] at hkind hplain ⊢
  omega

theorem not_returns_of_class (h0 : bits w 27 25 ≠ 0) (h2 : bits w 27 25 ≠ 2)
    (h4 : bits w 27 25 ≠ 4) : ¬ Returns w := by
  intro hreturns
  cases hreturns with
  | exchange hop => exact h0 (fields_of_exchange w hop).1
  | move hclass => exact h0 hclass
  | pop hclass => exact h2 hclass
  | block hclass => exact h4 hclass

theorem returns_iff_of_register (hclass : bits w 27 25 = 0) : Returns w ↔
    (bits w 27 4 = 0x12FFF1 ∧ rm w = lr)
      ∨ (bits w 24 21 = 13 ∧ rd w = pc ∧ bits w 11 4 = 0 ∧ rm w = lr) := by
  constructor
  · intro hreturns
    cases hreturns with
    | exchange hop hrm => exact .inl ⟨hop, hrm⟩
    | move _ hkind hrd hplain hrm => exact .inr ⟨hkind, hrd, hplain, hrm⟩
    | pop h => omega
    | block h => omega
  · rintro (⟨hop, hrm⟩ | ⟨hkind, hrd, hplain, hrm⟩)
    · exact .exchange hop hrm
    · exact .move hclass hkind hrd hplain hrm

theorem returns_iff_of_single (hclass : bits w 27 25 = 2) : Returns w ↔
    rn w = sp ∧ bits w 24 20 = 0b01001 ∧ bits w 11 0 = 4 ∧ rd w = pc := by
  constructor
  · intro hreturns
    cases hreturns with
    | exchange hop =>
      have hregister := (fields_of_exchange w hop).1
      omega
    | move h => omega
    | pop _ hmode hrn hrd hoffset => exact ⟨hrn, hmode, hoffset, hrd⟩
    | block h => omega
  · rintro ⟨hrn, hmode, hoffset, hrd⟩
    exact .pop hclass hmode hrn hrd hoffset

theorem returns_iff_of_block (hclass : bits w 27 25 = 4) : Returns w ↔
    bit w 20 ∧ rn w = sp ∧ bit w 15 := by
  constructor
  · intro hreturns
    cases hreturns with
    | exchange hop =>
      have hregister := (fields_of_exchange w hop).1
      omega
    | move h => omega
    | pop h => omega
    | block _ hload hrn hpc => exact ⟨hload, hrn, hpc⟩
  · rintro ⟨hload, hrn, hpc⟩
    exact .block hclass hload hrn hpc

end

/-! ### What is final in each class -/

section

variable {P : Flow → Prop} (hP : Flow.Final P) (w : UInt32) (a : UInt64)

include hP

theorem hasFlow_miscellaneous :
    HasFlow P (miscellaneous w) ↔ P .ret ∧ bits w 27 4 = 0x12FFF1 ∧ rm w = lr := by
  by_cases hop : bits w 27 4 = 0x12FFF1
  · simp only [miscellaneous, if_pos hop, hasFlow_some]
    split <;> simp [hP.indirect, *]
  · simp [miscellaneous, plain, hP.next, hP.indirect, hop]

theorem not_hasFlow_multiply : ¬ HasFlow P (multiply w) := by
  unfold multiply
  split
  · rw [hasFlow_some]
    split <;> exact hP.next
  · simp [plain, hP.next]

theorem not_hasFlow_extraLoadStore : ¬ HasFlow P (extraLoadStore w a) := by
  simp [extraLoadStore, hP.next, hP.leave]

theorem hasFlow_loadStore : HasFlow P (loadStore w a) ↔ P .ret ∧
    bit w 25 = false ∧ rn w = sp ∧ bits w 24 20 = 0b01001 ∧ bits w 11 0 = 4 ∧ rd w = pc := by
  by_cases hindex : bit w 25
  · simp [loadStore, hindex, hP.leave]
  · simp only [loadStore, if_neg hindex]
    by_cases hpop : rn w = sp ∧ bits w 24 20 = 0b01001 ∧ bits w 11 0 = 4
    · rw [if_pos hpop, hasFlow_some]
      split <;> simp [hP.next, *]
    · rw [if_neg hpop]
      refine iff_of_false ?_ fun h => hpop ⟨h.2.2.1, h.2.2.2.1, h.2.2.2.2.1⟩
      simp [plain, hP.next, hP.leave]

theorem hasFlow_block :
    HasFlow P (block w) ↔ P .ret ∧ bit w 20 ∧ rn w = sp ∧ bit w 15 := by
  -- a list with `pc` in it is not empty, and every direction has a name
  have hlisted : bit w 15 → listed w ≠ [] := fun hpc =>
    List.ne_nil_of_mem (List.mem_filter.mpr ⟨List.mem_range.mpr (by decide : 15 < 16), hpc⟩)
  have hending : ∃ ending, blockEndings[bits w 24 23]? = some ending := by
    have hlt : bits w 24 23 < blockEndings.size := bits_lt w 24 23
    exact ⟨_, Array.getElem?_eq_getElem hlt⟩
  by_cases hload : bit w 20
  · by_cases hpc : bit w 15
    · by_cases hrn : rn w = sp
      · simp [block, hload, hpc, hrn, hlisted hpc, hending]
      · simp [block, hload, hpc, hrn, hP.indirect]
    · simp [block, hload, hpc, hP.next]
  · simp [block, plain, hload, hP.next]

theorem hasFlow_dataProcessing : HasFlow P (dataProcessing w) ↔ P .ret ∧
    bits w 24 21 = 13 ∧ rd w = pc ∧ bit w 25 = false ∧ bits w 11 4 = 0 ∧ rm w = lr := by
  simp only [dataProcessing, Option.bind_eq_bind, hasFlow_bind]
  constructor
  · rintro ⟨stem, -, src, hsrc, hflow⟩
    by_cases hcompare : 8 ≤ bits w 24 21 ∧ bits w 24 21 ≤ 11
    · simp [hcompare, plain, hP.next] at hflow
    by_cases hmove : bits w 24 21 = 13
    · rw [if_neg hcompare, if_pos hmove] at hflow
      split at hflow
      · -- a shifted move leaves at most
        exact absurd (hasFlow_some.mp hflow) hP.leave
      · rename_i hunshifted
        rw [hasFlow_some] at hflow
        dsimp only at hflow
        split at hflow
        · rename_i hregs
          obtain ⟨hrd, himm, hrm⟩ := hregs
          have himm : bit w 25 = false := by simpa using himm
          rw [source, himm, if_neg Bool.false_ne_true] at hsrc
          obtain ⟨r, hr, rfl⟩ := Option.map_eq_some_iff.mp hsrc
          -- a register that is not shifted has no shift field
          refine ⟨hflow, hmove, hrd, himm, (shift_eq_none_iff w hr).mp ?_, hrm⟩
          exact Option.eq_none_iff_forall_not_mem.mpr fun s hs =>
            hunshifted r.name r.writeback r.opensList r.closesList s (by rw [← hs])
        · exact absurd hflow hP.leave
    · simp [hcompare, hmove, hP.leave] at hflow
  · rintro ⟨hret, hkind, hrd, himm, hplain, hrm⟩
    refine ⟨"mov", by simp [hkind, dataNames], _, source_of_plain w himm hplain, ?_⟩
    simp [hkind, hrd, himm, hrm, hret]

theorem hasFlow_registerForms (himm : bit w 25 = false) :
    HasFlow P (registerForms w a) ↔ P .ret ∧ ((bits w 27 4 = 0x12FFF1 ∧ rm w = lr)
      ∨ (bits w 24 21 = 13 ∧ rd w = pc ∧ bits w 11 4 = 0 ∧ rm w = lr)) := by
  unfold registerForms
  by_cases hother : bit w 7 ∧ bit w 4
  · -- multiplications, exclusives and extra transfers
    rw [if_pos hother]
    refine iff_of_false ?_ ?_
    · split
      · intro hflow
        rcases hflow.of_or with hflow | hflow
        · exact not_hasFlow_multiply hP w hflow
        · obtain ⟨-, hop, -⟩ := (hasFlow_miscellaneous hP w).mp hflow
          simp [(fields_of_exchange w hop).2.2.2] at hother
      · exact not_hasFlow_extraLoadStore hP w a
    · rintro ⟨-, ⟨hop, -⟩ | ⟨hkind, -, hplain, -⟩⟩
      · simp [(fields_of_exchange w hop).2.2.2] at hother
      · simp [(fields_of_move w hkind hplain).2] at hother
  rw [if_neg hother]
  by_cases hmisc : bits w 24 23 = 2 ∧ !bit w 20
  · have hnot : ¬(bits w 24 21 = 13 ∧ rd w = pc ∧ bits w 11 4 = 0 ∧ rm w = lr) := by
      rintro ⟨hkind, -, hplain, -⟩
      simp [(fields_of_move w hkind hplain).1] at hmisc
    rw [if_pos hmisc, hasFlow_miscellaneous hP, or_iff_left hnot]
  · have hnot : ¬(bits w 27 4 = 0x12FFF1 ∧ rm w = lr) := by
      rintro ⟨hop, -⟩
      obtain ⟨-, hspace, hbit, -⟩ := fields_of_exchange w hop
      simp [hspace, hbit] at hmisc
    rw [if_neg hmisc, hasFlow_dataProcessing hP, or_iff_right hnot]
    simp [himm]

theorem not_hasFlow_immediateForms (himm : bit w 25 = true) :
    ¬ HasFlow P (immediateForms w) := by
  simp [immediateForms, plain, hP.next, hasFlow_dataProcessing hP, himm]

/-- A branch asks for its condition. -/
theorem not_hasFlow_branch (hcond : cond w ≠ always) : ¬ P (branch w a).flow := by
  unfold branch
  dsimp only
  rw [if_neg hcond]
  split
  · exact hP.call _
  · exact hP.branch _

/-- **What is final under a condition**: the returns, and nothing else. -/
theorem hasFlow_decode (halways : cond w ≠ always) (hcond : cond w ≠ 15) :
    HasFlow P (decode w a) ↔ P .ret ∧ Returns w := by
  have hbit : bit w 25 = true ↔ bits w 27 25 % 2 = 1 := by
    rw [bit_eq_true_iff, bits_eq]
    omega
  -- the classes without a return
  have hother : bits w 27 25 ≠ 0 → bits w 27 25 ≠ 2 → bits w 27 25 ≠ 4 →
      ∀ x, ¬ HasFlow P x → (HasFlow P x ↔ P .ret ∧ Returns w) := fun h0 h2 h4 x hx =>
    iff_of_false hx fun h => not_returns_of_class w h0 h2 h4 h.2
  unfold decode
  rw [if_neg hcond]
  split
  case _ hclass =>
    have himm : bit w 25 = false := by simp [← Bool.not_eq_true, hbit, hclass]
    rw [hasFlow_registerForms hP w a himm, returns_iff_of_register w hclass]
  case _ hclass =>
    refine hother (by omega) (by omega) (by omega) _ (not_hasFlow_immediateForms hP w ?_)
    simp [hbit, hclass]
  case _ hclass =>
    have himm : bit w 25 = false := by simp [← Bool.not_eq_true, hbit, hclass]
    simp [hasFlow_loadStore hP, returns_iff_of_single w hclass, himm]
  case _ hclass =>
    refine hother (by omega) (by omega) (by omega) _ ?_
    have himm : bit w 25 = true := by simp [hbit, hclass]
    simp [hasFlow_loadStore hP, himm, hP.next]
  case _ hclass => rw [hasFlow_block hP, returns_iff_of_block w hclass]
  case _ hclass =>
    refine hother (by omega) (by omega) (by omega) _ ?_
    exact fun h => not_hasFlow_branch hP w a halways (hasFlow_some.mp h)
  case _ hclass =>
    refine hother (by omega) (by omega) (by omega) _ ?_
    simp [plain, hP.next]
  case _ h0 _ h2 _ h4 _ _ => exact hother h0 h2 h4 _ not_hasFlow_none

end

end Arm

theorem Instruction.flow_iff_hasFlow {P : Flow → Prop} (hnext : ¬ P .next) (i : Instruction) :
    P i.flow ↔ HasFlow P i.operation := by
  unfold Instruction.flow
  cases i.operation <;> simp [hnext]

/--
**A conditional instruction ends a sweep if and only if it is written as a return.**

Let a word have a condition, so that it falls through when the condition fails. At every address it
is no unconditional jump, not even as a branch. But a `bx lr`, a `mov pc, lr`, a `pop` of `pc` and
a load of `pc` from the stack are returns whatever their condition is, and behind these, and no
others, every sweep ends.
-/
theorem conditional_ends_iff {order : ByteOrder} {data : List UInt8} {w : UInt32}
    (hword : order.word? data = some w) (halways : Arm.cond w ≠ 14) (hcond : Arm.cond w ≠ 15)
    (a : UInt64) :
    let i := decode .arm order data a
    (∀ t, i.flow ≠ .jump t) ∧ (i.flow = .ret ↔ Arm.Returns w)
      ∧ ∀ s : Sweep, s.endsAt i = true ↔ Arm.Returns w := by
  intro i
  have hoperation : i.operation = Arm.decode w a :=
    congrArg Instruction.operation (decodeWord_of_word? hword a)
  have hfinal : ∀ {P : Flow → Prop}, Flow.Final P → (P i.flow ↔ P .ret ∧ Arm.Returns w) := by
    intro P hP
    rw [i.flow_iff_hasFlow hP.next, hoperation]
    exact Arm.hasFlow_decode hP w a halways hcond
  have hret : i.flow = .ret ↔ Arm.Returns w :=
    (hfinal (P := (· = .ret)) ⟨nofun, nofun, nofun, nofun⟩).trans (and_iff_right rfl)
  have hjump : ∀ t, i.flow ≠ .jump t := by
    intro t hflow
    have hiff := hfinal (P := (· = .jump t)) ⟨nofun, nofun, nofun, nofun⟩
    exact absurd (hiff.mp hflow).1 (by simp)
  refine ⟨hjump, hret, fun s => ?_⟩
  rw [← hret]
  unfold Sweep.endsAt
  split
  · simp [*]
  · exact absurd ‹i.flow = _› (hjump _)
  · rename_i hnotRet _
    exact iff_of_false Bool.false_ne_true hnotRet

/-- `popne {r4, pc}`, behind which control goes on if the last comparison was equal. -/
theorem conditional_ends_iff_pop :
    let data : List UInt8 := [0x18, 0xBD, 0x80, 0x10]
    ByteOrder.big.word? data = some 0x18BD8010 ∧ Arm.cond 0x18BD8010 = 1
      ∧ (decode .arm .big data 0x8000).flow = .ret
      ∧ ∀ s : Sweep, s.endsAt (decode .arm .big data 0x8000) = true := by
  intro data
  have hword : ByteOrder.big.word? data = some 0x18BD8010 := by decide
  have hreturns : Arm.Returns 0x18BD8010 :=
    .block (by decide) (by decide) (by decide) (by decide)
  obtain ⟨-, hret, hends⟩ := conditional_ends_iff hword (by decide) (by decide) 0x8000
  exact ⟨hword, by decide, hret.mpr hreturns, fun s => (hends s).mpr hreturns⟩

/-- Not every conditional instruction goes on: `bxne lr` is a return. -/
theorem conditional_return_ends :
    ¬ ∀ (order : ByteOrder) (data : List UInt8) (w : UInt32) (a : UInt64),
      order.word? data = some w → Arm.cond w ≠ 14 → Arm.cond w ≠ 15 →
        (decode .arm order data a).flow ≠ .ret
          ∧ ∀ t, (decode .arm order data a).flow ≠ .jump t := by
  intro h
  have hgoes := h .little [0x1E, 0xFF, 0x2F, 0x11] 0x112FFF1E 0x8000 (by decide) (by decide)
    (by decide)
  exact hgoes.1 (by decide +kernel)

end Disassembler
